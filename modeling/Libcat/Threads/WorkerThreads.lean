import Libcat.Mem.BatchSet

/-!
# The order of events

`ExecuteWorkQueue` of a worker thread: the buffers of a queue go to their callbacks in batches. A
median filter over neighbors puts buffers of one callback together although others stand between
them, and uses the pointers it reads along for the new batches. A callback does what it likes with
its buffers, so an access to one that it released has no result.

`Pending` is the invariant of the filter: what has run, the batch that is held back and the rest of the
queue are, for each callback, the queue in order.
-/

namespace Libcat.Threads.WorkerThreads

open Intrusive Mem

variable {α κ : Type} [DecidableEq α] [DecidableEq κ]

/-- The `batch_next` pointers of the buffers that are not released. -/
structure Heap (α : Type) where
  next : α → Option α
  alive : α → Bool

/-- A callback works on its own buffers only. -/
structure Handler (α κ : Type) where
  effect : κ → List α → Heap α → Heap α
  next_eq : ∀ k buffers heap a, a ∉ buffers → (effect k buffers heap).next a = heap.next a
  alive_eq : ∀ k buffers heap a, a ∉ buffers → (effect k buffers heap).alive a = heap.alive a

/-- One call: the set as it is passed and the buffers in it. -/
structure Event (α κ : Type) where
  callback : κ
  set : BatchSet α
  buffers : List α

structure State (α κ : Type) where
  heap : Heap α
  log : List (Event α κ)

section Model

def Heap.nextOf (heap : Heap α) (a : α) : Option (Option α) :=
  if heap.alive a then some (heap.next a) else none

/-- The buffers from a pointer on. -/
def Heap.walk (heap : Heap α) : Nat → Option α → Option (List α)
  | _, none => some []
  | 0, some _ => none
  | fuel + 1, some a => do
    let next ← heap.nextOf a
    let rest ← heap.walk fuel next
    return a :: rest

/-- `PushBack`. -/
def Heap.pushBack (heap : Heap α) (set : BatchSet α) (single : α) : Option (BatchSet α × Heap α) :=
  if heap.alive single ∧ ∀ tail ∈ set.tail, heap.alive tail then
    let r := set.pushBack heap.next single
    some (r.2, { heap with next := r.1 })
  else none

/-- The constructor of a set of one. -/
def Heap.single (heap : Heap α) (single : α) : Option (BatchSet α × Heap α) :=
  heap.pushBack BatchSet.clear single

variable (callback : α → κ) (handler : Handler α κ) (fuel : Nat)

def callbackOf (s : State α κ) (a : α) : Option κ := if s.heap.alive a then some (callback a) else none

/-- `object->callback(tls, set)`. -/
def call (s : State α κ) (object : α) (set : BatchSet α) : Option (State α κ) := do
  let k ← callbackOf callback s object
  let buffers ← s.heap.walk fuel set.head
  return ⟨handler.effect k buffers s.heap, s.log ++ [⟨k, set, buffers⟩]⟩

/-- `object->callback(tls, object)`. -/
def callSingle (s : State α κ) (object : α) : Option (State α κ) := do
  let (set, heap) ← s.heap.single object
  call callback handler fuel { s with heap } object set

def pushCurrent (s : State α κ) (prev current : α) (batch : BatchSet α) :
    Option (α × BatchSet α × State α κ) := do
  let (batch, heap) ← s.heap.pushBack batch current
  return (prev, batch, { s with heap })

def runCurrent (s : State α κ) (prev current : α) (batch : BatchSet α) :
    Option (α × BatchSet α × State α κ) := do
  let s ← callSingle callback handler fuel s current
  return (prev, batch, s)

def runPrev (s : State α κ) (prev current : α) (batch : BatchSet α) :
    Option (α × BatchSet α × State α κ) := do
  let s ← call callback handler fuel s prev batch
  let (batch, heap) ← s.heap.single current
  return (current, batch, { s with heap })

/-- The body of the filter, up to the step to the next buffer. -/
def filterStep (s : State α κ) (prev current next : α) (batch : BatchSet α) :
    Option (α × BatchSet α × State α κ) := do
  let p ← callbackOf callback s prev
  let c ← callbackOf callback s current
  if p = c then pushCurrent s prev current batch
  else do
    let n ← callbackOf callback s next
    if p = n then runCurrent callback handler fuel s prev current batch
    else runPrev callback handler fuel s prev current batch

/-- While there is a `(current, next)` pair remaining to filter. -/
def filterLoop : Nat → State α κ → α → α → Option α → BatchSet α →
    Option (α × α × BatchSet α × State α κ)
  | _, s, prev, current, none, batch => some (prev, current, batch, s)
  | 0, _, _, _, some _, _ => none
  | rounds + 1, s, prev, current, some next, batch => do
    let (prev, batch, s) ← filterStep callback handler fuel s prev current next batch
    let after ← s.heap.nextOf next
    filterLoop rounds s prev next after batch

/-- If the previous batch includes the last one. -/
def filterLast (s : State α κ) (prev current : α) (batch : BatchSet α) :
    Option (α × BatchSet α × State α κ) := do
  let p ← callbackOf callback s prev
  let c ← callbackOf callback s current
  if p = c then pushCurrent s prev current batch
  else runCurrent callback handler fuel s prev current batch

/-- `ExecuteWorkQueue`. -/
def executeWorkQueue (s : State α κ) (queue : BatchSet α) : Option (State α κ) :=
  match queue.head with
  | none => some s
  | some prev => do
    match ← s.heap.nextOf prev with
    | none => call callback handler fuel s prev queue
    | some current => do
      let (batch, heap) ← s.heap.single prev
      let s := { s with heap }
      let next ← s.heap.nextOf current
      let (prev, current, batch, s) ← filterLoop callback handler fuel fuel s prev current next batch
      let (prev, batch, s) ← filterLast callback handler fuel s prev current batch
      call callback handler fuel s prev batch

end Model

/-! ## Sets in memory -/

/-- The set is the list, and none of it is released. -/
structure Live (heap : Heap α) (set : BatchSet α) (l : List α) : Prop where
  holds : set.Holds heap.next l
  nodup : l.Nodup
  alive : ∀ a ∈ l, heap.alive a = true

/-- The rest of a queue. -/
structure Chain (heap : Heap α) (l : List α) : Prop where
  seg : Seg heap.next l.head? l none
  nodup : l.Nodup
  alive : ∀ a ∈ l, heap.alive a = true

/-- The buffers that are not in the list are as they were. -/
def Spares (heap heap' : Heap α) (l : List α) : Prop :=
  ∀ a, a ∉ l → heap'.next a = heap.next a ∧ heap'.alive a = heap.alive a

omit [DecidableEq α] in
theorem Chain.spared {heap heap' : Heap α} {l m : List α} (h : Chain heap m)
    (hs : Spares heap heap' l) (hlm : ∀ a ∈ m, a ∉ l) : Chain heap' m where
  seg := h.seg.congr fun a ha => (hs a (hlm a ha)).1
  nodup := h.nodup
  alive a ha := by rw [(hs a (hlm a ha)).2, h.alive a ha]

omit [DecidableEq α] in
theorem Live.spared {heap heap' : Heap α} {set : BatchSet α} {l m : List α} (h : Live heap set m)
    (hs : Spares heap heap' l) (hlm : ∀ a ∈ m, a ∉ l) : Live heap' set m where
  holds := ⟨h.holds.seg.congr fun a ha => (hs a (hlm a ha)).1, h.holds.tail⟩
  nodup := h.nodup
  alive a ha := by rw [(hs a (hlm a ha)).2, h.alive a ha]

omit [DecidableEq α] in
theorem Chain.tail {heap : Heap α} {a : α} {l : List α} (h : Chain heap (a :: l)) :
    heap.nextOf a = some l.head? ∧ Chain heap l := by
  have hseg : Seg heap.next (heap.next a) l none := h.seg.2
  refine ⟨?_, hseg.head ▸ hseg, (List.nodup_cons.mp h.nodup).2, fun b hb =>
    h.alive b (List.mem_cons_of_mem a hb)⟩
  rw [Heap.nextOf, if_pos (h.alive a List.mem_cons_self), hseg.head]

omit [DecidableEq α] in
theorem walk_eq {heap : Heap α} {l : List α} (h : Chain heap l) {fuel : Nat}
    (hfuel : l.length ≤ fuel) : heap.walk fuel l.head? = some l := by
  induction l generalizing fuel with
  | nil =>
    cases fuel <;> rfl
  | cons a l ih =>
    obtain ⟨fuel, rfl⟩ : ∃ n, fuel = n + 1 := ⟨fuel - 1, by simp at hfuel; omega⟩
    obtain ⟨hnext, hl⟩ := h.tail
    rw [List.head?_cons, Heap.walk, hnext]
    simp only [Option.bind_eq_bind, Option.bind_some, ih hl (Nat.le_of_succ_le_succ hfuel)]
    rfl

theorem pushBack_spec {heap : Heap α} {set : BatchSet α} {l : List α} (h : Live heap set l) {a : α}
    (ha : heap.alive a = true) (hal : a ∉ l) :
    ∃ set' heap', heap.pushBack set a = some (set', heap') ∧ Live heap' set' (l ++ [a]) ∧
      Spares heap heap' (l ++ [a]) := by
  have htail : ∀ tail ∈ set.tail, heap.alive tail = true := fun t ht => by
    obtain ⟨l', rfl⟩ := h.holds.eq_concat ht
    exact h.alive t (by simp)
  refine ⟨_, _, by rw [Heap.pushBack, if_pos ⟨ha, htail⟩], ⟨h.holds.pushBack h.nodup hal, ?_, ?_⟩, ?_⟩
  · exact List.nodup_append.mpr ⟨h.nodup, List.nodup_singleton a, fun b hb c hc hbc =>
      hal (List.mem_singleton.mp hc ▸ hbc ▸ hb)⟩
  · intro b hb
    obtain hb | hb := List.mem_append.mp hb
    · exact h.alive b hb
    · exact List.mem_singleton.mp hb ▸ ha
  · intro b hb
    rw [List.mem_append, List.mem_singleton, not_or] at hb
    exact ⟨h.holds.pushBack_next hb.1 hb.2, rfl⟩

theorem single_spec {heap : Heap α} {a : α} (ha : heap.alive a = true) :
    ∃ set' heap', heap.single a = some (set', heap') ∧ Live heap' set' [a] ∧
      Spares heap heap' [a] :=
  pushBack_spec ⟨BatchSet.holds_clear heap.next, List.nodup_nil, by simp⟩ ha (by simp)

/-! ## Calls -/

/-- The buffers that a callback ran, in order. -/
def ran (log : List (Event α κ)) (k : κ) : List α :=
  (log.filter fun e => e.callback = k).flatMap Event.buffers

/-- A batch holds its list, and the callback is that of all its buffers. -/
structure Event.Sound (callback : α → κ) (e : Event α κ) : Prop where
  head : e.set.head = e.buffers.head?
  tail : e.set.tail = e.buffers.getLast?
  own : ∀ a ∈ e.buffers, callback a = e.callback

omit [DecidableEq α] in
theorem ran_append (log log' : List (Event α κ)) (k : κ) :
    ran (log ++ log') k = ran log k ++ ran log' k := by
  rw [ran, List.filter_append, List.flatMap_append, ran, ran]

section Calls

variable {callback : α → κ} {handler : Handler α κ} {fuel : Nat}

omit [DecidableEq α] in
/-- A batch of one callback adds to what this callback ran. -/
theorem ran_single {e : Event α κ} (h : e.Sound callback) (k : κ) :
    ran [e] k = e.buffers.filter fun a => callback a = k := by
  by_cases hk : e.callback = k
  · have hall : ∀ a ∈ e.buffers, decide (callback a = k) = true := fun a ha => by
      rw [h.own a ha]
      exact decide_eq_true hk
    rw [List.filter_eq_self.mpr hall]
    simp [ran, hk]
  · have hnone : ∀ a ∈ e.buffers, ¬decide (callback a = k) = true := fun a ha => by
      rw [h.own a ha]
      simpa using hk
    rw [List.filter_eq_nil_iff.mpr hnone]
    simp [ran, hk]

omit [DecidableEq α] [DecidableEq κ] in
theorem call_spec {s : State α κ} {object : α} {set : BatchSet α} {l : List α}
    (h : Live s.heap set l) (hobject : s.heap.alive object = true) (hfuel : l.length ≤ fuel) :
    ∃ heap', call callback handler fuel s object set =
        some ⟨heap', s.log ++ [⟨callback object, set, l⟩]⟩ ∧ Spares s.heap heap' l := by
  have hhead := h.holds.seg.head
  have hwalk := walk_eq ⟨hhead ▸ h.holds.seg, h.nodup, h.alive⟩ hfuel
  refine ⟨handler.effect (callback object) l s.heap, ?_, fun a ha =>
    ⟨handler.next_eq _ _ _ a ha, handler.alive_eq _ _ _ a ha⟩⟩
  rw [call, callbackOf, if_pos hobject, hhead]
  simp only [Option.bind_eq_bind, Option.bind_some, hwalk]
  rfl

omit [DecidableEq κ] in
theorem callSingle_spec {s : State α κ} {object : α} (hobject : s.heap.alive object = true)
    (hfuel : 1 ≤ fuel) :
    ∃ heap' set, callSingle callback handler fuel s object =
        some ⟨heap', s.log ++ [⟨callback object, set, [object]⟩]⟩ ∧ Spares s.heap heap' [object] ∧
      (⟨callback object, set, [object]⟩ : Event α κ).Sound callback := by
  obtain ⟨set, heap, hsingle, hlive, hspares⟩ := single_spec hobject
  obtain ⟨heap', hcall, hspares'⟩ := @call_spec α κ callback handler fuel { s with heap } object set
    [object] hlive (hlive.alive object (by simp)) hfuel
  refine ⟨heap', set, ?_, fun a ha => ?_, ⟨hlive.holds.seg.head, hlive.holds.tail, by simp⟩⟩
  · rw [callSingle, hsingle]
    exact hcall
  · exact ⟨(hspares' a ha).1.trans (hspares a ha).1, (hspares' a ha).2.trans (hspares a ha).2⟩

end Calls

/-! ## The filter -/

section Filter

variable {callback : α → κ} (handler : Handler α κ) {fuel : Nat} {l : List α}

/-- What has run, the batch that is held back and the rest are the queue `l`. -/
structure Pending (callback : α → κ) (fuel : Nat) (l : List α) (s : State α κ) (prev : α)
    (batch : BatchSet α) (b rest : List α) : Prop where
  live : Live s.heap batch b
  chain : Chain s.heap rest
  first : prev ∈ b
  own : ∀ a ∈ b, callback a = callback prev
  apart : ∀ a ∈ b, a ∉ rest
  short : b.length + rest.length ≤ fuel
  sound : ∀ e ∈ s.log, Event.Sound callback e
  order : ∀ k, ran s.log k ++ (b ++ rest).filter (fun a => callback a = k) =
    l.filter fun a => callback a = k

omit [DecidableEq α] in
/-- The batch as it is passed to its callback. -/
theorem Pending.event {s : State α κ} {prev : α} {batch : BatchSet α} {b rest : List α}
    (h : Pending callback fuel l s prev batch b rest) :
    (⟨callback prev, batch, b⟩ : Event α κ).Sound callback :=
  ⟨h.live.holds.seg.head, h.live.holds.tail, h.own⟩

theorem Pending.pushCurrent {s : State α κ} {prev current : α} {batch : BatchSet α} {b rest : List α}
    (h : Pending callback fuel l s prev batch b (current :: rest))
    (hsame : callback prev = callback current) :
    ∃ batch' s', pushCurrent s prev current batch = some (prev, batch', s') ∧
      Pending callback fuel l s' prev batch' (b ++ [current]) rest := by
  have hcurrent : current ∉ b := fun hb => h.apart current hb List.mem_cons_self
  have hrest := List.nodup_cons.mp h.chain.nodup
  obtain ⟨batch', heap', hpush, hlive, hspares⟩ := pushBack_spec h.live
    (h.chain.alive current List.mem_cons_self) hcurrent
  have hapart : ∀ a ∈ rest, a ∉ b ++ [current] := fun a ha hb => by
    obtain hb | hb := List.mem_append.mp hb
    · exact h.apart a hb (List.mem_cons_of_mem _ ha)
    · exact hrest.1 (List.mem_singleton.mp hb ▸ ha)
  refine ⟨batch', { s with heap := heap' }, ?_, hlive, h.chain.tail.2.spared hspares hapart,
    List.mem_append_left _ h.first, ?_, fun a ha hr => hapart a hr ha, ?_, h.sound, fun k => ?_⟩
  · rw [WorkerThreads.pushCurrent, hpush]
    rfl
  · intro a ha
    obtain ha | ha := List.mem_append.mp ha
    · exact h.own a ha
    · rw [List.mem_singleton.mp ha, hsame]
  · have := h.short
    simp only [List.length_append, List.length_cons, List.length_nil] at this ⊢
    omega
  · rw [List.append_assoc, List.singleton_append]
    exact h.order k

theorem Pending.runCurrent {s : State α κ} {prev current : α} {batch : BatchSet α} {b rest : List α}
    (h : Pending callback fuel l s prev batch b (current :: rest))
    (hother : callback prev ≠ callback current) :
    ∃ s', runCurrent callback handler fuel s prev current batch = some (prev, batch, s') ∧
      Pending callback fuel l s' prev batch b rest := by
  have hcurrent : current ∉ b := fun hb => h.apart current hb List.mem_cons_self
  have hrest := List.nodup_cons.mp h.chain.nodup
  have hshort := h.short
  rw [List.length_cons] at hshort
  obtain ⟨heap', set, hcall, hspares, hsound⟩ := @callSingle_spec α κ _ callback handler fuel s current
    (h.chain.alive current List.mem_cons_self) (by omega)
  refine ⟨⟨heap', s.log ++ [⟨callback current, set, [current]⟩]⟩, ?_, h.live.spared hspares ?_,
    h.chain.tail.2.spared hspares ?_, h.first, h.own, fun a ha hr => h.apart a ha
      (List.mem_cons_of_mem _ hr), by omega, ?_, fun k => ?_⟩
  · rw [WorkerThreads.runCurrent, hcall]
    rfl
  · exact fun a ha hc => hcurrent (List.mem_singleton.mp hc ▸ ha)
  · exact fun a ha hc => hrest.1 (List.mem_singleton.mp hc ▸ ha)
  · intro e he
    obtain he | he := List.mem_append.mp he
    · exact h.sound e he
    · exact List.mem_singleton.mp he ▸ hsound
  · -- the batch that is held back belongs to another callback
    have hswap : [current].filter (fun a => callback a = k) ++ b.filter (fun a => callback a = k) =
        b.filter (fun a => callback a = k) ++ [current].filter fun a => callback a = k := by
      by_cases hk : callback current = k
      · have hnone : b.filter (fun a => callback a = k) = [] :=
          List.filter_eq_nil_iff.mpr fun a ha => by
            rw [h.own a ha, ← hk]
            simpa using hother
        rw [hnone, List.nil_append, List.append_nil]
      · rw [show [current].filter (fun a => callback a = k) = [] by simp [hk], List.nil_append,
          List.append_nil]
    rw [← h.order k, ran_append, ran_single hsound k, List.append_cons b, List.filter_append,
      List.filter_append, List.filter_append, ← hswap]
    simp only [List.append_assoc]

omit [DecidableEq α] in
theorem Pending.call {s : State α κ} {prev : α} {batch : BatchSet α} {b rest : List α}
    (h : Pending callback fuel l s prev batch b rest) :
    ∃ heap', call callback handler fuel s prev batch =
        some ⟨heap', s.log ++ [⟨callback prev, batch, b⟩]⟩ ∧ Chain heap' rest ∧
      ∀ k, ran (s.log ++ [⟨callback prev, batch, b⟩]) k ++ rest.filter (fun a => callback a = k) =
        l.filter fun a => callback a = k := by
  have hshort := h.short
  obtain ⟨heap', hcall, hspares⟩ := @call_spec α κ callback handler fuel s prev batch b h.live
    (h.live.alive prev h.first) (by omega)
  refine ⟨heap', hcall, h.chain.spared hspares fun a ha hb => h.apart a hb ha, fun k => ?_⟩
  rw [← h.order k, ran_append, ran_single h.event k, List.filter_append, List.append_assoc]

theorem Pending.runPrev {s : State α κ} {prev current : α} {batch : BatchSet α} {b rest : List α}
    (h : Pending callback fuel l s prev batch b (current :: rest)) :
    ∃ batch' s', runPrev callback handler fuel s prev current batch = some (current, batch', s') ∧
      Pending callback fuel l s' current batch' [current] rest := by
  have hrest := List.nodup_cons.mp h.chain.nodup
  have hshort := h.short
  obtain ⟨heap', hcall, hchain, horder⟩ := h.call handler
  obtain ⟨batch', heap'', hsingle, hlive, hspares⟩ := single_spec
    (hchain.alive current List.mem_cons_self)
  have hapart : ∀ a ∈ rest, a ∉ [current] := fun a ha hc =>
    hrest.1 (List.mem_singleton.mp hc ▸ ha)
  refine ⟨batch', ⟨heap'', s.log ++ [⟨callback prev, batch, b⟩]⟩, ?_, hlive,
    hchain.tail.2.spared hspares hapart, List.mem_singleton_self current, ?_,
    fun a ha hr => hapart a hr ha, ?_, ?_, horder⟩
  · rw [WorkerThreads.runPrev, hcall]
    simp only [Option.bind_eq_bind, Option.bind_some, hsingle]
    rfl
  · intro a ha
    rw [List.mem_singleton.mp ha]
  · have := List.length_pos_of_mem h.first
    simp only [List.length_cons, List.length_nil] at hshort ⊢
    omega
  · intro e he
    obtain he | he := List.mem_append.mp he
    · exact h.sound e he
    · exact List.mem_singleton.mp he ▸ h.event

omit [DecidableEq α] [DecidableEq κ] in
theorem callbackOf_eq (callback : α → κ) {s : State α κ} {a : α} (ha : s.heap.alive a = true) :
    callbackOf callback s a = some (callback a) := if_pos ha

theorem filterStep_spec {s : State α κ} {prev current next : α} {batch : BatchSet α}
    {b rest : List α} (h : Pending callback fuel l s prev batch b (current :: next :: rest)) :
    ∃ prev' batch' s' b', filterStep callback handler fuel s prev current next batch =
        some (prev', batch', s') ∧ Pending callback fuel l s' prev' batch' b' (next :: rest) := by
  have hprev := callbackOf_eq callback (h.live.alive prev h.first)
  have hcurrent := callbackOf_eq callback (h.chain.alive current (by simp))
  have hnext := callbackOf_eq callback (h.chain.alive next (by simp))
  simp only [filterStep, hprev, hcurrent, hnext, Option.bind_eq_bind, Option.bind_some]
  by_cases hsame : callback prev = callback current
  · obtain ⟨batch', s', hpush, hpending⟩ := h.pushCurrent hsame
    exact ⟨prev, batch', s', _, by rw [if_pos hsame, hpush], hpending⟩
  · rw [if_neg hsame]
    by_cases hback : callback prev = callback next
    · obtain ⟨s', hrun, hpending⟩ := h.runCurrent handler hsame
      exact ⟨prev, batch, s', _, by rw [if_pos hback, hrun], hpending⟩
    · obtain ⟨batch', s', hrun, hpending⟩ := h.runPrev handler
      exact ⟨current, batch', s', _, by rw [if_neg hback, hrun], hpending⟩

theorem filterLoop_spec (rounds : Nat) {s : State α κ} {prev current : α} {batch : BatchSet α}
    {b rest : List α} (h : Pending callback fuel l s prev batch b (current :: rest))
    (hrounds : rest.length ≤ rounds) :
    ∃ prev' current' batch' s' b', filterLoop callback handler fuel rounds s prev current rest.head?
        batch = some (prev', current', batch', s') ∧
      Pending callback fuel l s' prev' batch' b' [current'] := by
  induction rest generalizing rounds s prev current batch b with
  | nil =>
    refine ⟨prev, current, batch, s, b, ?_, h⟩
    cases rounds <;> rfl
  | cons next rest ih =>
    obtain ⟨rounds, rfl⟩ : ∃ n, rounds = n + 1 := ⟨rounds - 1, by simp at hrounds; omega⟩
    obtain ⟨prev', batch', s', b', hstep, hpending⟩ := filterStep_spec handler h
    obtain ⟨prev'', current'', batch'', s'', b'', hloop, hpending'⟩ := ih rounds hpending
      (Nat.le_of_succ_le_succ hrounds)
    refine ⟨prev'', current'', batch'', s'', b'', ?_, hpending'⟩
    rw [List.head?_cons, filterLoop]
    simp only [hstep, hpending.chain.tail.1, hloop, Option.bind_eq_bind, Option.bind_some]

theorem filterLast_spec {s : State α κ} {prev current : α} {batch : BatchSet α} {b : List α}
    (h : Pending callback fuel l s prev batch b [current]) :
    ∃ batch' s' b', filterLast callback handler fuel s prev current batch =
        some (prev, batch', s') ∧ Pending callback fuel l s' prev batch' b' [] := by
  have hprev := callbackOf_eq callback (h.live.alive prev h.first)
  have hcurrent := callbackOf_eq callback (h.chain.alive current (by simp))
  simp only [filterLast, hprev, hcurrent, Option.bind_eq_bind, Option.bind_some]
  by_cases hsame : callback prev = callback current
  · obtain ⟨batch', s', hpush, hpending⟩ := h.pushCurrent hsame
    exact ⟨batch', s', _, by rw [if_pos hsame, hpush], hpending⟩
  · obtain ⟨s', hrun, hpending⟩ := h.runCurrent handler hsame
    exact ⟨batch, s', _, by rw [if_neg hsame, hrun], hpending⟩

/-- The queue when the filter begins. -/
theorem Pending.start {s : State α κ} {prev : α} {rest : List α}
    (hchain : Chain s.heap (prev :: rest)) (hlog : s.log = []) (hfuel : rest.length + 1 ≤ fuel) :
    ∃ batch heap', s.heap.single prev = some (batch, heap') ∧
      Pending callback fuel (prev :: rest) { s with heap := heap' } prev batch [prev] rest := by
  have hnodup := List.nodup_cons.mp hchain.nodup
  obtain ⟨batch, heap', hsingle, hlive, hspares⟩ := single_spec
    (hchain.alive prev List.mem_cons_self)
  have hapart : ∀ a ∈ rest, a ∉ [prev] := fun a ha hp => hnodup.1 (List.mem_singleton.mp hp ▸ ha)
  refine ⟨batch, heap', hsingle, hlive, hchain.tail.2.spared hspares hapart,
    List.mem_singleton_self prev, fun a ha => by rw [List.mem_singleton.mp ha],
    fun a ha hr => hapart a hr ha, ?_, ?_, fun k => ?_⟩
  · rw [List.length_singleton]
    omega
  · simp [hlog]
  · simp [hlog, ran]

omit [DecidableEq α] in
/-- All that ran, callback by callback. -/
theorem filter_buffers {log : List (Event α κ)} (h : ∀ e ∈ log, Event.Sound callback e) (k : κ) :
    (log.flatMap Event.buffers).filter (fun a => callback a = k) = ran log k := by
  induction log with
  | nil => rfl
  | cons e log ih =>
    rw [List.flatMap_cons, List.filter_append, ih fun e he => h e (List.mem_cons_of_mem _ he),
      ← ran_single (h e List.mem_cons_self), ← ran_append, List.singleton_append]

/-- What a queue comes to: every buffer runs once, with its own callback, and the buffers of a callback
run in their order. -/
structure Executed (callback : α → κ) (l : List α) (log : List (Event α κ)) : Prop where
  perm : (log.flatMap Event.buffers).Perm l
  sound : ∀ e ∈ log, Event.Sound callback e
  order : ∀ k, ran log k = l.filter fun a => callback a = k

theorem Executed.of_order {log : List (Event α κ)} (hsound : ∀ e ∈ log, Event.Sound callback e)
    (horder : ∀ k, ran log k = l.filter fun a => callback a = k) : Executed callback l log where
  perm := List.perm_iff_count.mpr fun a => by
    have hfilter := filter_buffers hsound (callback a)
    rw [horder] at hfilter
    have hcount : ∀ m : List α, (m.filter fun b => callback b = callback a).count a = m.count a :=
      fun m => List.count_filter (by simp)
    rw [← hcount, hfilter, hcount]
  sound := hsound
  order := horder

theorem Pending.finish {s : State α κ} {prev : α} {batch : BatchSet α} {b : List α}
    (h : Pending callback fuel l s prev batch b []) :
    ∃ s', WorkerThreads.call callback handler fuel s prev batch = some s' ∧ Executed callback l s'.log := by
  obtain ⟨heap', hcall, -, horder⟩ := h.call handler
  refine ⟨_, hcall, Executed.of_order ?_ fun k => ?_⟩
  · intro e he
    obtain he | he := List.mem_append.mp he
    · exact h.sound e he
    · exact List.mem_singleton.mp he ▸ h.event
  · have := horder k
    rwa [List.filter_nil, List.append_nil] at this

/-- **Work queue reordering.** Every queue runs to its end, and no callback sees its buffers out of
order. -/
theorem executeWorkQueue_executed {s : State α κ} {queue : BatchSet α} (hqueue : Live s.heap queue l)
    (hlog : s.log = []) (hfuel : l.length ≤ fuel) :
    ∃ s', executeWorkQueue callback handler fuel s queue = some s' ∧ Executed callback l s'.log := by
  have hhead := hqueue.holds.seg.head
  have hchain : Chain s.heap l := ⟨hhead ▸ hqueue.holds.seg, hqueue.nodup, hqueue.alive⟩
  rw [executeWorkQueue, hhead]
  cases l with
  | nil => exact ⟨s, rfl, by rw [hlog]; exact Executed.of_order (by simp) fun k => rfl⟩
  | cons prev rest =>
    obtain ⟨batch, heap', hsingle, hpending⟩ := @Pending.start α κ _ _ callback fuel s prev rest hchain
      hlog hfuel
    simp only [List.head?_cons, hchain.tail.1, Option.bind_eq_bind, Option.bind_some]
    cases rest with
    | nil =>
      obtain ⟨heap'', hcall, -⟩ := @call_spec α κ callback handler fuel s prev queue [prev] hqueue
        (hchain.alive prev List.mem_cons_self) hfuel
      have hsound : (⟨callback prev, queue, [prev]⟩ : Event α κ).Sound callback :=
        ⟨hhead, hqueue.holds.tail, by simp⟩
      refine ⟨_, hcall, Executed.of_order ?_ fun k => ?_⟩
      · simpa [hlog] using hsound
      · rw [hlog, List.nil_append, ran_single hsound]
    | cons current rest =>
      obtain ⟨prev', current', batch', s', b', hloop, hpending'⟩ :=
        filterLoop_spec handler fuel hpending (by simp at hfuel; omega)
      obtain ⟨batch'', s'', b'', hlast, hpending''⟩ := filterLast_spec handler hpending'
      obtain ⟨filtered, hcall, hexecuted⟩ := hpending''.finish handler
      refine ⟨filtered, ?_, hexecuted⟩
      simp only [List.head?_cons, hsingle, hpending.chain.tail.1, hloop, hlast, hcall,
        Option.bind_some]

end Filter

/-- Callbacks that release their buffers at once. -/
def releaseAll : Handler α κ where
  effect _ buffers heap := { heap with alive := fun a => heap.alive a && !decide (a ∈ buffers) }
  next_eq _ _ _ _ _ := rfl
  alive_eq _ _ heap a ha := by simp [ha]

/-- Five buffers of three callbacks; the second one runs ahead of the first. -/
theorem executeWorkQueue_speckled :
    ∃ s', executeWorkQueue (fun a : Nat => if a = 1 then 1 else if a < 3 then 0 else 2) releaseAll 5
        ⟨⟨fun a => if a < 4 then some (a + 1) else none, fun a => decide (a < 5)⟩, []⟩
        ⟨some 0, some 4⟩ = some s' ∧
      Executed (fun a : Nat => if a = 1 then 1 else if a < 3 then 0 else 2) [0, 1, 2, 3, 4] s'.log :=
  executeWorkQueue_executed releaseAll
    ⟨⟨⟨rfl, rfl, rfl, rfl, rfl, rfl⟩, rfl⟩, by decide, by decide⟩ rfl (by decide)

end Libcat.Threads.WorkerThreads
