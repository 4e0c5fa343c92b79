import Libcat.Lib.Run
import Libcat.Math.BitMath

/-!
# The DNS client

`DNSClient::Resolve` answers a numeric or cached hostname at once and otherwise leaves the callback
with a pending request, where a response, a timeout, a failed repost or the end of the endpoint
finds it. A run is a list of inputs: the entry into a call of `Resolve` up to the end of its cache
section, its request section, a packet, a tick, the shutdown and the finalization. The client lock
is held for the whole of a call, the request lock only in the second section, so packets and ticks
may come between the two.

- `Promise`: what the comment over `Resolve` says about the callback and `holdRef`.
- `Served`: the calls that return true. `Resolve` of the client invokes the callback of a call that
  the endpoint did not serve, and then returns false.

The reading of numeric addresses and the comparison of hostnames depend on the platform and are
parameters.
-/

namespace Libcat.Net.DNSClient

open Run

/-! ## The client -/

def hostnameMaxlen : Nat := 63
def dnsreqTimeout : Int := 3000
def dnsreqRepostTime : Int := 300
def dnsreqMaxSimul : Nat := 2048
def dnscacheMaxReqs : Nat := 32
def dnscacheMaxResp : Nat := 32
def dnscacheTimeout : Int := 60000

/-- `DNSCallback`, with the number of the call it came from. -/
structure Callback (α : Type*) where
  ticket : Nat
  cb : List α → Bool
  ref : Bool

/-- `DNSRequest` -/
structure Request (α : Type*) where
  firstPostTime : u32
  lastPostTime : u32
  hostname : List u8
  id : u16
  callbacks : List (Callback α)
  responses : List α

/-- `DNSClientEndpoint` -/
structure Endpoint (α : Type*) where
  shutdown : Bool
  requestList : List (Request α)
  requestQueueSize : Nat
  cacheList : List (Request α)
  cacheSize : Nat

structure Client (α : Type*) where
  endpoint : Option (Endpoint α)
  calls : Nat
  /-- The call that is between its two sections. -/
  resolving : Option (List u8 × Callback α)

inductive Event (α : Type*) where
  | call (ticket : Nat) (holdRef : Bool)
  | callback (ticket : Nat) (results : List α)
  | addRef (ticket : Nat)
  | releaseRef (ticket : Nat)
  | returned (ticket : Nat) (result : Bool)

def Event.ticket {α : Type*} : Event α → Nat
  | .call t _ | .callback t _ | .addRef t | .releaseRef t | .returned t _ => t

/-- A datagram: its source, its header words, and the addresses in its answers. -/
structure Packet (α : Type*) where
  fromServer : Bool
  dataBytes : Nat
  id : u16
  hdr : u16
  answers : List α

inductive Input (α : Type*) where
  | resolve (hostname : List u8) (cb : List α → Bool) (holdRef : Bool) (now : u32)
  /-- The rest of the call: what the generator gives, whether the two allocations and the first send
  succeed. -/
  | request (generate : Nat → u16) (newRequest newCallback sent : Bool) (now : u32)
  | recv (packet : Packet α) (now : u32)
  /-- `post` tells which of the requests can be posted again. -/
  | tick (now : u32) (post : Request α → Bool)
  | shutdown
  | finalize

/-! ### Hostnames -/

def isAlphabetic (c : u8) : Bool := (65 ≤ c && c ≤ 90) || (97 ≤ c && c ≤ 122)
def isNumeric (c : u8) : Bool := 48 ≤ c && c ≤ 57

/-- The loop of `IsValidHostname`; the terminator ends the last label. -/
def validLabels (lastChar : u8) (seenAlphabetic : Bool) : List u8 → Bool
  | [] => seenAlphabetic && (isAlphabetic lastChar || isNumeric lastChar)
  | c :: cs =>
    if isAlphabetic c then validLabels c true cs
    else if isNumeric c then validLabels c seenAlphabetic cs
    else if c = 45 then
      if lastChar = 45 || lastChar = 0 then false else validLabels c seenAlphabetic cs
    else if c = 46 then
      if seenAlphabetic && (isAlphabetic lastChar || isNumeric lastChar) then validLabels 0 false cs
      else false
    else false

def isValidHostname (hostname : List u8) : Bool :=
  hostname.length ≤ hostnameMaxlen && validLabels 0 false hostname

/-! ### Identifiers -/

/-- `INCREMENT_THRESHOLD` -/
def incrementThreshold : Nat := 32

/-- The loop of `GetUnusedID`: random tries first, then one identifier after the other. -/
def idLoop (used : List u16) (generate : Nat → u16) : Nat → Nat → u16 → Option u16
  | 0, _, _ => none
  | fuel + 1, tries, id =>
    let id := if incrementThreshold ≤ tries + 1 then id + 1 else generate tries
    if id ∈ used then idLoop used generate fuel (tries + 1) id else some id

def getUnusedID (used : List u16) (generate : Nat → u16) : Option u16 :=
  idLoop used generate (incrementThreshold + used.length + 1) 0 0

/-! ### The endpoint -/

section Endpoint

variable {α : Type*}

/-- A callback is invoked, and the reference goes. -/
def Callback.answer (c : Callback α) (results : List α) : List (Event α) :=
  .callback c.ticket results :: if c.ref then [.releaseRef c.ticket] else []

def Callback.hold (c : Callback α) : List (Event α) := if c.ref then [.addRef c.ticket] else []

namespace Endpoint

def cacheAdd (e : Endpoint α) (req : Request α) (now : u32) : Endpoint α :=
  let req := { req with lastPostTime := now }
  if e.cacheSize < dnscacheMaxReqs then
    { e with cacheSize := e.cacheSize + 1, cacheList := req :: e.cacheList }
  else
    { e with cacheList := req :: e.cacheList.dropLast }

/-- The first entry of the name before the first that has expired; without one, the expired entries
are chopped off. -/
def cacheGet (iStrEqual : List u8 → List u8 → Bool) (e : Endpoint α) (hostname : List u8) (now : u32) :
    Endpoint α × Option (Request α) :=
  let live := e.cacheList.takeWhile fun r => (now - r.lastPostTime).toInt < dnscacheTimeout
  match live.find? fun r => iStrEqual r.hostname hostname with
  | some r => (e, some r)
  | none =>
    ({ e with cacheList := live, cacheSize := e.cacheSize - (e.cacheList.length - live.length) }, none)

/-- `CacheKill` of the entry that `cacheGet` found. -/
def cacheKill (iStrEqual : List u8 → List u8 → Bool) (e : Endpoint α) (hostname : List u8) :
    Endpoint α :=
  { e with
    cacheList := e.cacheList.eraseP fun r => iStrEqual r.hostname hostname
    cacheSize := e.cacheSize - 1 }

def notifyRequesters (now : u32) (e : Endpoint α) (req : Request α) : Endpoint α × List (Event α) :=
  let addToCache := req.callbacks.any fun c => c.cb req.responses
  (if addToCache then e.cacheAdd { req with callbacks := [] } now else e,
    req.callbacks.flatMap fun c => c.answer req.responses)

def notifyAll (now : u32) : Endpoint α → List (Request α) → Endpoint α × List (Event α)
  | e, [] => (e, [])
  | e, req :: reqs =>
    let a := e.notifyRequesters now req
    let b := notifyAll now a.1 reqs
    (b.1, a.2 ++ b.2)

/-- `PullRequest` -/
def pullRequest (e : Endpoint α) (id : u16) : Endpoint α × Option (Request α) :=
  match e.requestList.find? (·.id = id) with
  | none => (e, none)
  | some req =>
    ({ e with
      requestList := e.requestList.eraseP (·.id = id)
      requestQueueSize := e.requestQueueSize - 1 }, some req)

/-- `OnRecv`, for one buffer. -/
def onRecv (e : Endpoint α) (packet : Packet α) (now : u32) : Endpoint α × List (Event α) :=
  let qr := packet.hdr >>> 15 &&& 1
  let opcode := packet.hdr >>> 11 &&& 0x000F
  let rcode := packet.hdr &&& 0x000F
  if !packet.fromServer || packet.dataBytes < 12 || qr = 0 || opcode ≠ 0 then (e, [])
  else
    match e.pullRequest packet.id with
    | (e, none) => (e, [])
    | (e, some req) =>
      let responses := if rcode = 0 then packet.answers.take dnscacheMaxResp else []
      e.notifyRequesters now { req with responses := responses }

def timedOut (now : u32) (req : Request α) : Bool :=
  dnsreqTimeout ≤ (now - req.firstPostTime).toInt

def repostDue (now : u32) (req : Request α) : Bool :=
  dnsreqRepostTime ≤ (now - req.lastPostTime).toInt

/-- The requests that `OnTick` gives up. -/
def lost (now : u32) (post : Request α → Bool) (req : Request α) : Bool :=
  timedOut now req || (repostDue now req && !post req)

def onTick (e : Endpoint α) (now : u32) (post : Request α → Bool) : Endpoint α × List (Event α) :=
  let kept := (e.requestList.filter fun r => !lost now post r).map fun r =>
    if repostDue now r then { r with lastPostTime := now } else r
  let gone := e.requestList.filter (lost now post)
  notifyAll now
    { e with requestList := kept, requestQueueSize := e.requestQueueSize - gone.length } gone

/-- `OnFinalize` -/
def onFinalize (e : Endpoint α) : List (Event α) :=
  if 0 < e.requestQueueSize then
    e.requestList.flatMap fun r => r.callbacks.flatMap fun c => c.answer []
  else
    []

end Endpoint

end Endpoint

/-! ### Steps -/

section Step

variable {α : Type*} (numeric : List u8 → Option α) (iStrEqual : List u8 → List u8 → Bool)

/-- The end of `DNSClient::Resolve` when the endpoint is missing or did not serve the call. -/
def fail (t : Nat) : List (Event α) := [.callback t [], .returned t false]

/-- `Resolve` up to the release of the cache lock. -/
def resolve (e : Endpoint α) (hostname : List u8) (c : Callback α) (now : u32) :
    Endpoint α × Option (List u8 × Callback α) × List (Event α) :=
  if e.shutdown then (e, none, fail c.ticket)
  else
    match numeric hostname with
    | some addr => (e, none, [.callback c.ticket [addr], .returned c.ticket true])
    | none =>
      if !isValidHostname hostname then (e, none, fail c.ticket)
      else
        match e.cacheGet iStrEqual hostname now with
        | (e, some cached) =>
          (if c.cb cached.responses then e else e.cacheKill iStrEqual hostname, none,
            [.callback c.ticket cached.responses, .returned c.ticket true])
        | (e, none) => (e, some (hostname, c), [])

/-- The request for a hostname that is pending gets one more callback. -/
def joinPending (hostname : List u8) (c : Callback α) : List (Request α) → Option (List (Request α))
  | [] => none
  | req :: reqs =>
    if iStrEqual req.hostname hostname then
      some ({ req with callbacks := c :: req.callbacks } :: reqs)
    else
      (joinPending hostname c reqs).map (req :: ·)

/-- `Resolve` from the request lock on; `none` while the loop for an identifier runs. -/
def request (e : Endpoint α) (hostname : List u8) (c : Callback α) (generate : Nat → u16)
    (newRequest newCallback sent : Bool) (now : u32) : Option (Endpoint α × List (Event α)) :=
  match joinPending iStrEqual hostname c e.requestList with
  | some reqs =>
    if newCallback then
      some ({ e with requestList := reqs }, c.hold ++ [.returned c.ticket true])
    else
      some (e, fail c.ticket)
  | none =>
    if dnsreqMaxSimul ≤ e.requestQueueSize then some (e, fail c.ticket)
    else
      match getUnusedID (e.requestList.map (·.id)) generate with
      | none => none
      | some id =>
        if !newRequest || !newCallback then some (e, fail c.ticket)
        else if sent then
          let req : Request α :=
            { firstPostTime := now, lastPostTime := now, hostname := hostname, id := id,
              callbacks := [c], responses := [] }
          some ({ e with
            requestList := req :: e.requestList
            requestQueueSize := e.requestQueueSize + 1 }, c.hold ++ [.returned c.ticket true])
        else
          -- the callback is not freed, but the reference goes
          some (e, c.hold ++ (if c.ref then [.releaseRef c.ticket] else []) ++ fail c.ticket)

def step (s : Client α) : Input α → Client α × List (Event α)
  | .resolve hostname cb holdRef now =>
    -- another call holds the lock
    if s.resolving.isSome then (s, [])
    else
      let c : Callback α := ⟨s.calls, cb, holdRef⟩
      match s.endpoint with
      | none => ({ s with calls := s.calls + 1 }, .call c.ticket holdRef :: fail c.ticket)
      | some e =>
        let r := resolve numeric iStrEqual e hostname c now
        ({ endpoint := some r.1, calls := s.calls + 1, resolving := r.2.1 },
          .call c.ticket holdRef :: r.2.2)
  | .request generate newRequest newCallback sent now =>
    match s.endpoint, s.resolving with
    | some e, some (hostname, c) =>
      match request iStrEqual e hostname c generate newRequest newCallback sent now with
      | none => (s, [])
      | some r => ({ s with endpoint := some r.1, resolving := none }, r.2)
    | _, _ => (s, [])
  | .recv packet now =>
    match s.endpoint with
    | none => (s, [])
    | some e =>
      let r := e.onRecv packet now
      ({ s with endpoint := some r.1 }, r.2)
  | .tick now post =>
    match s.endpoint with
    | none => (s, [])
    | some e =>
      let r := e.onTick now post
      ({ s with endpoint := some r.1 }, r.2)
  | .shutdown => ({ s with endpoint := s.endpoint.map fun e => { e with shutdown := true } }, [])
  | .finalize =>
    -- `SetEndpoint` waits for the lock
    if s.resolving.isSome then (s, [])
    else
      match s.endpoint with
      | none => (s, [])
      | some e => ({ s with endpoint := none }, e.onFinalize)

/-- The client with its endpoint, or without. -/
def start (present : Bool) : Client α where
  endpoint := if present then some ⟨false, [], 0, [], 0⟩ else none
  calls := 0
  resolving := none

end Step

/-! ## What is promised -/

section Promise

variable {α : Type*}

def callbacks (t : Nat) (log : List (Event α)) : Nat :=
  log.countP fun | .callback u _ => u = t | _ => false

def addRefs (t : Nat) (log : List (Event α)) : Nat :=
  log.countP fun | .addRef u => u = t | _ => false

def releaseRefs (t : Nat) (log : List (Event α)) : Nat :=
  log.countP fun | .releaseRef u => u = t | _ => false

/-- The callback of a call that returned true runs once, at the latest in `OnFinalize`; that of a
call that returned false does not run. A reference is held until the callback has run, and then
released. -/
structure Promise (finalized : Prop) (log : List (Event α)) : Prop where
  atMostOnce : ∀ t, .returned t true ∈ log → callbacks t log ≤ 1
  once : finalized → ∀ t, .returned t true ∈ log → callbacks t log = 1
  never : ∀ t, .returned t false ∈ log → callbacks t log = 0
  held : ∀ t, .call t true ∈ log → .returned t true ∈ log → callbacks t log = 0 →
    addRefs t log = 1 ∧ releaseRefs t log = 0
  released : ∀ t, .returned t true ∈ log → callbacks t log = 1 →
    releaseRefs t log = addRefs t log ∧ addRefs t log ≤ 1
  after : ∀ t a b, .returned t true ∈ log → log = a ++ .releaseRef t :: b → callbacks t a = 1

variable (numeric : List u8 → Option α) (iStrEqual : List u8 → List u8 → Bool)

/-- A call that the endpoint serves, in each of its two sections. -/
def Served (s : Client α) : Input α → Prop
  | .resolve hostname _ _ _ =>
    s.resolving.isSome ∨ ∃ e, s.endpoint = some e ∧ e.shutdown = false ∧
      ((numeric hostname).isSome ∨ isValidHostname hostname)
  | .request _ newRequest newCallback sent _ =>
    ∀ e hostname c, s.endpoint = some e → s.resolving = some (hostname, c) →
      if ∃ req ∈ e.requestList, iStrEqual req.hostname hostname then newCallback
      else e.requestQueueSize < dnsreqMaxSimul ∧ newRequest ∧ newCallback ∧ sent
  | _ => True

/-- A run from the start. -/
def run (present : Bool) (inputs : List (Input α)) : Client α × List (Event α) :=
  exec (step numeric iStrEqual) (start present) inputs

end Promise

/-! ## Identifiers run out after the requests -/

section Ids

variable {used : List u16} {generate : Nat → u16}

theorem idLoop_add (n : Nat) : ∀ {fuel tries : Nat} {id : u16},
    idLoop used generate (n + fuel) tries id = none →
      ∃ id', idLoop used generate fuel (tries + n) id' = none := by
  induction n with
  | zero =>
    intro fuel tries id h
    exact ⟨id, by simpa using h⟩
  | succ n ih =>
    intro fuel tries id h
    rw [show n + 1 + fuel = n + fuel + 1 by omega, idLoop] at h
    generalize (if incrementThreshold ≤ tries + 1 then id + 1 else generate tries) = next at h
    split at h
    · obtain ⟨id', h'⟩ := ih h
      exact ⟨id', by rw [show tries + (n + 1) = tries + 1 + n by omega]; exact h'⟩
    · cases h

/-- Past the random tries, a loop that finds nothing has seen one used identifier after the other. -/
theorem mem_of_idLoop_eq_none : ∀ {fuel tries : Nat} {id : u16}, incrementThreshold ≤ tries + 1 →
    idLoop used generate fuel tries id = none → ∀ k < fuel, id + 1 + BitVec.ofNat 16 k ∈ used := by
  intro fuel
  induction fuel with
  | zero =>
    intro tries id _ _ k hk
    omega
  | succ fuel ih =>
    intro tries id ht h k hk
    rw [idLoop, if_pos ht] at h
    split at h
    · next hid =>
      rcases k with _ | k
      · simpa using hid
      · have := ih (by omega) h k (by omega)
        rw [BitVec.ofNat_add k 1, BitVec.add_comm (BitVec.ofNat 16 k), ← BitVec.add_assoc]
        exact this
    · cases h

theorem not_mem_of_idLoop : ∀ {fuel tries : Nat} {start id : u16},
    idLoop used generate fuel tries start = some id → id ∉ used := by
  intro fuel
  induction fuel with
  | zero =>
    intro tries start id h
    cases h
  | succ fuel ih =>
    intro tries start id h
    rw [idLoop] at h
    generalize (if incrementThreshold ≤ tries + 1 then start + 1 else generate tries) = next at h
    split at h
    · exact ih h
    · next hid => exact Option.some.inj h ▸ hid

theorem not_mem_of_getUnusedID {id : u16} (h : getUnusedID used generate = some id) : id ∉ used :=
  not_mem_of_idLoop h

/-- The loop of `GetUnusedID` ends. -/
theorem getUnusedID_isSome (h : used.length < dnsreqMaxSimul) :
    ∃ id, getUnusedID used generate = some id := by
  by_contra hn
  have hnone : getUnusedID used generate = none := by
    cases hid : getUnusedID used generate with
    | none => rfl
    | some id => exact absurd ⟨id, hid⟩ hn
  rw [getUnusedID, Nat.add_assoc] at hnone
  obtain ⟨id, hid⟩ := idLoop_add incrementThreshold hnone
  have hmem := mem_of_idLoop_eq_none (by omega) hid
  have hnodup : ((List.range (used.length + 1)).map fun k => id + 1 + BitVec.ofNat 16 k).Nodup := by
    refine List.Nodup.map_on ?_ List.nodup_range
    intro a ha b hb hab
    rw [List.mem_range] at ha hb
    have hab := congrArg BitVec.toNat ((BitVec.add_right_inj _).mp hab)
    simp only [BitVec.toNat_ofNat, dnsreqMaxSimul] at hab h
    rw [Nat.mod_eq_of_lt (by omega), Nat.mod_eq_of_lt (by omega)] at hab
    exact hab
  have hsub : List.Subperm _ used := hnodup.subperm fun x hx => by
    obtain ⟨k, hk, rfl⟩ := List.mem_map.mp hx
    exact hmem k (List.mem_range.mp hk)
  have := hsub.length_le
  simp only [List.length_map, List.length_range] at this
  omega

end Ids

/-! ## Traces -/

section Traces

variable {α : Type*}

/-- What the log says about one call. -/
def trace (t : Nat) (log : List (Event α)) : List (Event α) := log.filter fun e => e.ticket = t

@[simp] theorem trace_append (t : Nat) (l l' : List (Event α)) :
    trace t (l ++ l') = trace t l ++ trace t l' :=
  List.filter_append l l'

@[simp] theorem trace_nil (t : Nat) : trace t ([] : List (Event α)) = [] := rfl

theorem trace_eq_self {t : Nat} {l : List (Event α)} (h : ∀ e ∈ l, e.ticket = t) : trace t l = l :=
  List.filter_eq_self.mpr fun e he => by simpa using h e he

theorem trace_eq_nil {t : Nat} {l : List (Event α)} (h : ∀ e ∈ l, e.ticket ≠ t) : trace t l = [] :=
  List.filter_eq_nil_iff.mpr fun e he => by simpa using h e he

theorem trace_append_of_ne {t u : Nat} {l l' : List (Event α)} (h : ∀ e ∈ l', e.ticket = u)
    (ht : t ≠ u) : trace t (l ++ l') = trace t l := by
  have hnil : trace t l' = [] := trace_eq_nil fun e he => by
    rw [h e he]
    exact ht.symm
  rw [trace_append, hnil, List.append_nil]

theorem mem_trace {t : Nat} {l : List (Event α)} {e : Event α} (he : e.ticket = t) :
    e ∈ trace t l ↔ e ∈ l := by
  simp [trace, he]

theorem ticket_answer {c : Callback α} {results : List α} {e : Event α} (h : e ∈ c.answer results) :
    e.ticket = c.ticket := by
  simp only [Callback.answer, List.mem_cons] at h
  rcases h with rfl | h
  · rfl
  · split at h
    · rw [List.mem_singleton.mp h]
      rfl
    · cases h

theorem ticket_hold {c : Callback α} {e : Event α} (h : e ∈ c.hold) : e.ticket = c.ticket := by
  simp only [Callback.hold] at h
  split at h
  · rw [List.mem_singleton.mp h]
    rfl
  · cases h

/-- A call that waits for its answer. -/
def waitingTrace (c : Callback α) : List (Event α) :=
  .call c.ticket c.ref :: (c.hold ++ [.returned c.ticket true])

/-- A call that has got it. -/
def Answered (t : Nat) (l : List (Event α)) : Prop :=
  (∃ hold results, l = [.call t hold, .callback t results, .returned t true]) ∨
    ∃ c results, c.ticket = t ∧ l = waitingTrace c ++ c.answer results

theorem trace_answers {out : List (Callback α × List α)} (h : (out.map (·.1.ticket)).Nodup) (t : Nat) :
    trace t (out.flatMap fun p => p.1.answer p.2) =
      ((out.find? fun p => p.1.ticket = t).map fun p => p.1.answer p.2).getD [] := by
  induction out with
  | nil => rfl
  | cons p out ih =>
    obtain ⟨hp, h⟩ := List.nodup_cons.mp h
    rw [List.flatMap_cons, trace_append, ih h]
    by_cases ht : p.1.ticket = t
    · have hrest : (out.find? fun p => p.1.ticket = t) = none := by
        rw [List.find?_eq_none]
        intro q hq hqt
        exact hp (List.mem_map.mpr ⟨q, hq, by simpa [ht] using hqt⟩)
      rw [trace_eq_self fun e he => (ticket_answer he).trans ht, hrest, List.find?_cons_of_pos (by simpa)]
      simp
    · rw [trace_eq_nil fun e he => by rw [ticket_answer he]; exact ht, List.nil_append,
        List.find?_cons_of_neg (by simpa)]

end Traces

/-! ## The invariant -/

section Inv

variable {α : Type*}

def Endpoint.waiting (e : Endpoint α) : List (Callback α) := e.requestList.flatMap (·.callbacks)

/-- The callbacks that are with the requests. -/
def Client.waiting (s : Client α) : List (Callback α) :=
  match s.endpoint with
  | none => []
  | some e => e.waiting

structure Inv (s : Client α) (log : List (Event α)) : Prop where
  nodup : (s.waiting.map (·.ticket)).Nodup
  wait : ∀ c ∈ s.waiting, c.ticket < s.calls ∧ trace c.ticket log = waitingTrace c
  inside : ∀ hostname c, s.resolving = some (hostname, c) → c.ticket < s.calls ∧
    (∀ d ∈ s.waiting, d.ticket ≠ c.ticket) ∧ trace c.ticket log = [.call c.ticket c.ref]
  rest : ∀ t < s.calls, (∀ c ∈ s.waiting, c.ticket ≠ t) →
    (∀ hostname c, s.resolving = some (hostname, c) → c.ticket ≠ t) → Answered t (trace t log)
  fresh : ∀ t, s.calls ≤ t → trace t log = []
  size : ∀ e, s.endpoint = some e → e.requestQueueSize = e.requestList.length

/-- Some of the callbacks that wait are answered. -/
theorem Inv.answer {s s' : Client α} {log : List (Event α)} {out : List (Callback α × List α)}
    (h : Inv s log) (hw : s.waiting.Perm (s'.waiting ++ out.map (·.1))) (hcalls : s'.calls = s.calls)
    (hres : s'.resolving = s.resolving)
    (hsize : ∀ e, s'.endpoint = some e → e.requestQueueSize = e.requestList.length) :
    Inv s' (log ++ out.flatMap fun p => p.1.answer p.2) := by
  have hnodup : (s'.waiting.map (·.ticket) ++ out.map (·.1.ticket)).Nodup := by
    have := (hw.map (·.ticket)).nodup_iff.mp h.nodup
    simpa [List.map_append, List.map_map, Function.comp_def] using this
  obtain ⟨hn', hout, hdisj⟩ := List.nodup_append.mp hnodup
  have hmem : ∀ c, c ∈ s.waiting ↔ c ∈ s'.waiting ∨ c ∈ out.map (·.1) := fun c => by
    rw [hw.mem_iff, List.mem_append]
  have htrace := trace_answers hout
  -- no other call is touched
  have hother : ∀ t, (∀ p ∈ out, p.1.ticket ≠ t) →
      trace t (log ++ out.flatMap fun p => p.1.answer p.2) = trace t log := by
    intro t ht
    rw [trace_append, htrace, List.find?_eq_none.mpr (by simpa using ht)]
    simp
  refine ⟨hn', ?_, ?_, ?_, ?_, hsize⟩
  · intro c hc
    rw [hcalls, hother]
    · exact h.wait c ((hmem c).mpr (.inl hc))
    · intro p hp he
      exact hdisj _ (List.mem_map.mpr ⟨c, hc, rfl⟩) _ (List.mem_map.mpr ⟨p, hp, rfl⟩) he.symm
  · intro hostname c hc
    rw [hres] at hc
    obtain ⟨hlt, hnot, htr⟩ := h.inside hostname c hc
    refine ⟨hcalls ▸ hlt, fun d hd => hnot d ((hmem d).mpr (.inl hd)), ?_⟩
    rw [hother _ fun p hp => hnot p.1 ((hmem _).mpr (.inr (List.mem_map.mpr ⟨p, hp, rfl⟩)))]
    exact htr
  · intro t ht hnw hnr
    rw [hcalls] at ht
    rw [hres] at hnr
    by_cases hin : ∃ p ∈ out, p.1.ticket = t
    · obtain ⟨p, hp, rfl⟩ := hin
      have hfind : (out.find? fun q => q.1.ticket = p.1.ticket) = some p := by
        cases hf : out.find? fun q => q.1.ticket = p.1.ticket with
        | none =>
          have := List.find?_eq_none.mp hf p hp
          simp at this
        | some q =>
          have hq := List.mem_of_find?_eq_some hf
          have hqt : q.1.ticket = p.1.ticket := by simpa using List.find?_some hf
          rw [List.inj_on_of_nodup_map hout hq hp hqt]
      have hwt := (h.wait p.1 ((hmem _).mpr (.inr (List.mem_map.mpr ⟨p, hp, rfl⟩)))).2
      rw [trace_append, hwt, htrace, hfind]
      exact .inr ⟨p.1, p.2, rfl, rfl⟩
    · have hin : ∀ p ∈ out, p.1.ticket ≠ t := fun p hp he => hin ⟨p, hp, he⟩
      rw [hother t hin]
      refine h.rest t ht (fun c hc => ?_) hnr
      rcases (hmem c).mp hc with hc | hc
      · exact hnw c hc
      · obtain ⟨p, hp, rfl⟩ := List.mem_map.mp hc
        exact hin p hp
  · intro t ht
    rw [hcalls] at ht
    rw [hother]
    · exact h.fresh t ht
    · intro p hp he
      have := (h.wait p.1 ((hmem _).mpr (.inr (List.mem_map.mpr ⟨p, hp, rfl⟩)))).1
      omega

/-- A change that leaves the requests alone. -/
theorem Inv.same {s s' : Client α} {log : List (Event α)} (h : Inv s log)
    (hw : s'.waiting = s.waiting) (hcalls : s'.calls = s.calls) (hres : s'.resolving = s.resolving)
    (hsize : ∀ e, s'.endpoint = some e → e.requestQueueSize = e.requestList.length) : Inv s' log := by
  have := @Inv.answer _ s s' log [] h (by simp [hw]) hcalls hres hsize
  simpa using this

/-- A call enters and is answered at once, or goes on to its second section. -/
theorem Inv.enter {s s' : Client α} {log evs : List (Event α)} (h : Inv s log)
    (hres : s.resolving = none) (hw : s'.waiting = s.waiting) (hcalls : s'.calls = s.calls + 1)
    (hsize : ∀ e, s'.endpoint = some e → e.requestQueueSize = e.requestList.length)
    (hevs : ∀ e ∈ evs, e.ticket = s.calls)
    (hcase : s'.resolving = none ∧ Answered s.calls evs ∨
      ∃ hostname c, s'.resolving = some (hostname, c) ∧ c.ticket = s.calls ∧
        evs = [.call c.ticket c.ref]) : Inv s' (log ++ evs) := by
  have hold : ∀ t, t ≠ s.calls → trace t (log ++ evs) = trace t log :=
    fun t ht => trace_append_of_ne hevs ht
  have hnew : trace s.calls (log ++ evs) = evs := by
    rw [trace_append, h.fresh _ le_rfl, trace_eq_self hevs, List.nil_append]
  refine ⟨by rw [hw]; exact h.nodup, ?_, ?_, ?_, ?_, hsize⟩
  · intro c hc
    rw [hw] at hc
    obtain ⟨hlt, htr⟩ := h.wait c hc
    exact ⟨by omega, by rw [hold _ (by omega)]; exact htr⟩
  · intro hostname c hc
    rcases hcase with ⟨hn, -⟩ | ⟨_, d, hd, ht, rfl⟩
    · rw [hn] at hc
      cases hc
    · rw [hd] at hc
      cases hc
      refine ⟨by omega, fun d hd => ?_, by rw [ht] at hnew ⊢; exact hnew⟩
      rw [hw] at hd
      have := (h.wait d hd).1
      omega
  · intro t ht hnw hnr
    rw [hw] at hnw
    rw [hcalls] at ht
    by_cases hts : t = s.calls
    · subst hts
      rcases hcase with ⟨-, ha⟩ | ⟨hostname, c, hc, htc, -⟩
      · rw [hnew]
        exact ha
      · exact absurd htc (hnr hostname c hc)
    · rw [hold t hts]
      exact h.rest t (by omega) hnw fun hostname c hc => by rw [hres] at hc; cases hc
  · intro t ht
    rw [hcalls] at ht
    rw [hold t (by omega)]
    exact h.fresh t (by omega)

/-- The call that is inside leaves its callback with a request. -/
theorem Inv.leave {s s' : Client α} {log : List (Event α)} {hostname : List u8} {c : Callback α}
    (h : Inv s log) (hres : s.resolving = some (hostname, c)) (hw : s'.waiting.Perm (c :: s.waiting))
    (hcalls : s'.calls = s.calls) (hres' : s'.resolving = none)
    (hsize : ∀ e, s'.endpoint = some e → e.requestQueueSize = e.requestList.length) :
    Inv s' (log ++ (c.hold ++ [.returned c.ticket true])) := by
  obtain ⟨hlt, hnot, htr⟩ := h.inside hostname c hres
  have hevs : ∀ e ∈ c.hold ++ [.returned c.ticket true], e.ticket = c.ticket := by
    intro e he
    rcases List.mem_append.mp he with he | he
    · exact ticket_hold he
    · rw [List.mem_singleton.mp he]
      rfl
  have hold : ∀ t, t ≠ c.ticket →
      trace t (log ++ (c.hold ++ [.returned c.ticket true])) = trace t log :=
    fun t ht => trace_append_of_ne hevs ht
  refine ⟨?_, ?_, ?_, ?_, ?_, hsize⟩
  · rw [(hw.map (·.ticket)).nodup_iff, List.map_cons, List.nodup_cons]
    refine ⟨fun hm => ?_, h.nodup⟩
    obtain ⟨d, hd, hdt⟩ := List.mem_map.mp hm
    exact hnot d hd hdt
  · intro d hd
    rcases List.mem_cons.mp (hw.mem_iff.mp hd) with rfl | hd
    · refine ⟨by omega, ?_⟩
      rw [trace_append, htr, trace_eq_self hevs]
      rfl
    · obtain ⟨hdl, hdt⟩ := h.wait d hd
      exact ⟨by omega, by rw [hold _ (hnot d hd)]; exact hdt⟩
  · intro hostname d hd
    rw [hres'] at hd
    cases hd
  · intro t ht hnw _
    rw [hcalls] at ht
    have htc : t ≠ c.ticket := fun he => hnw c (hw.mem_iff.mpr (by simp)) he.symm
    rw [hold t htc]
    refine h.rest t ht (fun d hd => hnw d (hw.mem_iff.mpr (List.mem_cons_of_mem _ hd))) fun n d hd => ?_
    rw [hres] at hd
    cases hd
    exact htc.symm
  · intro t ht
    rw [hcalls] at ht
    rw [hold t (by omega)]
    exact h.fresh t ht

end Inv

/-! ## What the steps do to the requests -/

section Requests

variable {α : Type*}

namespace Endpoint

@[simp] theorem requestList_cacheAdd (e : Endpoint α) (req : Request α) (now : u32) :
    (e.cacheAdd req now).requestList = e.requestList := by
  simp only [cacheAdd]
  split <;> rfl

@[simp] theorem requestQueueSize_cacheAdd (e : Endpoint α) (req : Request α) (now : u32) :
    (e.cacheAdd req now).requestQueueSize = e.requestQueueSize := by
  simp only [cacheAdd]
  split <;> rfl

theorem cacheGet_requests (iStrEqual : List u8 → List u8 → Bool) (e : Endpoint α)
    (hostname : List u8) (now : u32) :
    (e.cacheGet iStrEqual hostname now).1.requestList = e.requestList ∧
      (e.cacheGet iStrEqual hostname now).1.requestQueueSize = e.requestQueueSize := by
  simp only [cacheGet]
  split <;> exact ⟨rfl, rfl⟩

theorem notifyRequesters_requests (now : u32) (e : Endpoint α) (req : Request α) :
    (e.notifyRequesters now req).1.requestList = e.requestList ∧
      (e.notifyRequesters now req).1.requestQueueSize = e.requestQueueSize := by
  simp only [notifyRequesters]
  split <;> simp

/-- The callbacks of a request with the results that they get. -/
def answers (req : Request α) : List (Callback α × List α) :=
  req.callbacks.map fun c => (c, req.responses)

theorem notifyRequesters_events (now : u32) (e : Endpoint α) (req : Request α) :
    (e.notifyRequesters now req).2 = (answers req).flatMap fun p => p.1.answer p.2 := by
  simp [notifyRequesters, answers, List.flatMap_map]

theorem notifyAll_spec (now : u32) (reqs : List (Request α)) : ∀ e : Endpoint α,
    (notifyAll now e reqs).1.requestList = e.requestList ∧
      (notifyAll now e reqs).1.requestQueueSize = e.requestQueueSize ∧
      (notifyAll now e reqs).2 = (reqs.flatMap answers).flatMap fun p => p.1.answer p.2 := by
  induction reqs with
  | nil => exact fun e => ⟨rfl, rfl, rfl⟩
  | cons req reqs ih =>
    intro e
    obtain ⟨h1, h2⟩ := notifyRequesters_requests now e req
    obtain ⟨i1, i2, i3⟩ := ih (e.notifyRequesters now req).1
    refine ⟨i1.trans h1, i2.trans h2, ?_⟩
    simp only [notifyAll]
    rw [i3, notifyRequesters_events, List.flatMap_cons, List.flatMap_append]

theorem map_fst_answers (reqs : List (Request α)) :
    (reqs.flatMap answers).map (·.1) = reqs.flatMap (·.callbacks) := by
  simp [List.map_flatMap, answers, Function.comp_def]

/-- Callbacks that wait, where requests are taken out of the list. -/
theorem waiting_perm {kept gone : List (Request α)} {e : Endpoint α}
    (h : e.requestList.Perm (kept ++ gone)) :
    e.waiting.Perm (kept.flatMap (·.callbacks) ++ (gone.flatMap answers).map (·.1)) := by
  rw [map_fst_answers, ← List.flatMap_append]
  exact h.flatMap_right _

theorem waiting_eq {e : Endpoint α} {reqs : List (Request α)} (h : e.requestList = reqs) :
    e.waiting = reqs.flatMap (·.callbacks) := by
  rw [waiting, h]

theorem perm_of_find? {β : Type*} {p : β → Bool} {b : β} :
    ∀ {l : List β}, l.find? p = some b → l.Perm (l.eraseP p ++ [b])
  | [], h => by cases h
  | a :: l, h => by
    by_cases ha : p a
    · rw [List.find?_cons_of_pos ha] at h
      cases h
      rw [List.eraseP_cons_of_pos ha]
      exact (List.perm_append_singleton _ _).symm
    · rw [List.find?_cons_of_neg ha] at h
      rw [List.eraseP_cons_of_neg ha]
      exact (perm_of_find? h).cons a

/-- A packet answers the callbacks of one request, or nothing. -/
theorem onRecv_spec (e : Endpoint α) (packet : Packet α) (now : u32)
    (hsize : e.requestQueueSize = e.requestList.length) :
    ∃ out : List (Callback α × List α), e.waiting.Perm ((e.onRecv packet now).1.waiting ++ out.map (·.1)) ∧
      (e.onRecv packet now).2 = (out.flatMap fun p => p.1.answer p.2) ∧
      (e.onRecv packet now).1.requestQueueSize = (e.onRecv packet now).1.requestList.length := by
  have hnone : ∃ out : List (Callback α × List α), e.waiting.Perm (e.waiting ++ out.map (·.1)) ∧
      [] = (out.flatMap fun p => p.1.answer p.2) ∧ e.requestQueueSize = e.requestList.length :=
    ⟨[], by simp, rfl, hsize⟩
  simp only [onRecv, pullRequest]
  split
  · exact hnone
  · cases hfind : e.requestList.find? (·.id = packet.id) with
    | none => exact hnone
    | some req =>
      have hperm := perm_of_find? hfind
      have hlen := hperm.length_eq
      dsimp only
      generalize (if packet.hdr &&& 15 = 0 then packet.answers.take dnscacheMaxResp else []) = responses
      obtain ⟨h1, h2⟩ := notifyRequesters_requests now
        { e with
          requestList := e.requestList.eraseP (·.id = packet.id)
          requestQueueSize := e.requestQueueSize - 1 } { req with responses := responses }
      refine ⟨answers { req with responses := responses }, ?_, notifyRequesters_events _ _ _, ?_⟩
      · rw [waiting_eq h1]
        have := waiting_perm hperm
        simpa [answers, Function.comp_def] using this
      · rw [h1, h2]
        simp only [List.length_append, List.length_singleton] at hlen
        dsimp only
        omega

theorem onTick_spec (e : Endpoint α) (now : u32) (post : Request α → Bool)
    (hsize : e.requestQueueSize = e.requestList.length) :
    ∃ out : List (Callback α × List α), e.waiting.Perm ((e.onTick now post).1.waiting ++ out.map (·.1)) ∧
      (e.onTick now post).2 = (out.flatMap fun p => p.1.answer p.2) ∧
      (e.onTick now post).1.requestQueueSize = (e.onTick now post).1.requestList.length := by
  have hperm : e.requestList.Perm
      (e.requestList.filter (fun r => !lost now post r) ++ e.requestList.filter (lost now post)) :=
    (List.perm_append_comm.trans (List.filter_append_perm (lost now post) e.requestList)).symm
  obtain ⟨h1, h2, h3⟩ := notifyAll_spec now (e.requestList.filter (lost now post))
    { e with
      requestList := (e.requestList.filter fun r => !lost now post r).map fun r =>
        if repostDue now r then { r with lastPostTime := now } else r
      requestQueueSize := e.requestQueueSize - (e.requestList.filter (lost now post)).length }
  refine ⟨_, ?_, h3, ?_⟩
  · rw [onTick, waiting_eq h1, List.flatMap_map]
    refine (waiting_perm hperm).trans (List.Perm.of_eq ?_)
    congr 1
    refine List.flatMap_congr fun r _ => ?_
    split <;> rfl
  · have hlen := hperm.length_eq
    rw [List.length_append] at hlen
    rw [onTick, h1, h2]
    dsimp only
    rw [List.length_map]
    omega

theorem onFinalize_spec (e : Endpoint α) (hsize : e.requestQueueSize = e.requestList.length) :
    e.onFinalize = (e.waiting.map fun c => (c, [])).flatMap fun p => p.1.answer p.2 := by
  rw [onFinalize, List.flatMap_map, waiting, List.flatMap_assoc]
  split
  · rfl
  · have : e.requestList = [] := List.length_eq_zero_iff.mp (by omega)
    rw [this]
    rfl

end Endpoint

end Requests

/-! ## Runs -/

section Runs

variable {α : Type*} {numeric : List u8 → Option α} {iStrEqual : List u8 → List u8 → Bool}

theorem joinPending_spec {hostname : List u8} {c : Callback α} : ∀ {l reqs : List (Request α)},
    joinPending iStrEqual hostname c l = some reqs →
      (reqs.flatMap (·.callbacks)).Perm (c :: l.flatMap (·.callbacks)) ∧ reqs.length = l.length
  | [], _, h => by cases h
  | req :: l, reqs, h => by
    rw [joinPending] at h
    split at h
    · cases h
      exact ⟨List.Perm.refl _, rfl⟩
    · obtain ⟨reqs', h', rfl⟩ := Option.map_eq_some_iff.mp h
      obtain ⟨hp, hl⟩ := joinPending_spec h'
      refine ⟨?_, by simp [hl]⟩
      rw [List.flatMap_cons, List.flatMap_cons]
      exact (hp.append_left req.callbacks).trans List.perm_middle

theorem joinPending_eq_none {hostname : List u8} {c : Callback α} : ∀ {l : List (Request α)},
    joinPending iStrEqual hostname c l = none ↔ ∀ req ∈ l, iStrEqual req.hostname hostname = false
  | [] => by simp [joinPending]
  | req :: l => by
    rw [joinPending]
    by_cases h : iStrEqual req.hostname hostname
    · simp [h]
    · simp [h, joinPending_eq_none (l := l)]

theorem joinPending_exists {hostname : List u8} {c : Callback α} {l reqs : List (Request α)}
    (h : joinPending iStrEqual hostname c l = some reqs) :
    ∃ req ∈ l, iStrEqual req.hostname hostname := by
  by_contra hno
  have hnone : joinPending iStrEqual hostname c l = none := joinPending_eq_none.mpr fun req hreq => by
    by_contra ht
    exact hno ⟨req, hreq, by simpa using ht⟩
  rw [hnone] at h
  cases h

/-- A call that is served is answered at once or goes on to its second section. -/
theorem resolve_spec {e : Endpoint α} {hostname : List u8} {c : Callback α} {now : u32}
    (hs : e.shutdown = false) (hv : (numeric hostname).isSome ∨ isValidHostname hostname) :
    let r := resolve numeric iStrEqual e hostname c now
    r.1.requestList = e.requestList ∧ r.1.requestQueueSize = e.requestQueueSize ∧
      ((r.2.1 = none ∧ ∃ results, r.2.2 = [.callback c.ticket results, .returned c.ticket true]) ∨
        (r.2.1 = some (hostname, c) ∧ r.2.2 = [])) := by
  simp only [resolve, hs]
  cases hn : numeric hostname with
  | some addr => exact ⟨rfl, rfl, .inl ⟨rfl, _, rfl⟩⟩
  | none =>
    have hv : isValidHostname hostname = true := by simpa [hn] using hv
    simp only [hv, Bool.not_true, Bool.false_eq_true, if_false]
    obtain ⟨h1, h2⟩ := e.cacheGet_requests iStrEqual hostname now
    rcases hg : e.cacheGet iStrEqual hostname now with ⟨e', _ | cached⟩
    · rw [hg] at h1 h2
      exact ⟨h1, h2, .inr ⟨rfl, rfl⟩⟩
    · rw [hg] at h1 h2
      refine ⟨?_, ?_, .inl ⟨rfl, _, rfl⟩⟩
      · rw [← h1]
        dsimp only
        split <;> rfl
      · rw [← h2]
        dsimp only
        split <;> rfl

/-- In its second section a call that is served leaves its callback with a request. -/
theorem request_spec {e : Endpoint α} {hostname : List u8} {c : Callback α} {generate : Nat → u16}
    {newRequest newCallback sent : Bool} {now : u32}
    (hsize : e.requestQueueSize = e.requestList.length)
    (hserved : if ∃ req ∈ e.requestList, iStrEqual req.hostname hostname then newCallback
      else e.requestQueueSize < dnsreqMaxSimul ∧ newRequest ∧ newCallback ∧ sent) :
    ∃ e', request iStrEqual e hostname c generate newRequest newCallback sent now =
        some (e', c.hold ++ [.returned c.ticket true]) ∧
      e'.waiting.Perm (c :: e.waiting) ∧ e'.requestQueueSize = e'.requestList.length := by
  rw [request]
  cases hj : joinPending iStrEqual hostname c e.requestList with
  | some reqs =>
    rw [if_pos (joinPending_exists hj)] at hserved
    obtain ⟨hp, hl⟩ := joinPending_spec hj
    dsimp only
    rw [if_pos hserved]
    exact ⟨_, rfl, hp, hsize.trans hl.symm⟩
  | none =>
    have hnot := joinPending_eq_none.mp hj
    rw [if_neg fun ⟨req, hreq, ht⟩ => by rw [hnot req hreq] at ht; cases ht] at hserved
    obtain ⟨hroom, rfl, rfl, rfl⟩ := hserved
    obtain ⟨id, hid⟩ := @getUnusedID_isSome (e.requestList.map (·.id)) generate
      (by rw [List.length_map]; omega)
    dsimp only
    rw [if_neg (by omega), hid]
    refine ⟨_, rfl, List.Perm.refl _, ?_⟩
    simp [hsize]

theorem Inv.step {s : Client α} {log : List (Event α)} (h : Inv s log) (i : Input α)
    (hserved : Served numeric iStrEqual s i) :
    Inv (step numeric iStrEqual s i).1 (log ++ (step numeric iStrEqual s i).2) := by
  have hid : Inv s (log ++ []) := by rwa [List.append_nil]
  cases i with
  | resolve hostname cb holdRef now =>
    simp only [DNSClient.step]
    by_cases hr : s.resolving.isSome
    · rw [if_pos hr]
      exact hid
    have hr' : s.resolving = none := by simpa using hr
    rw [if_neg hr]
    obtain ⟨e, he, hs, hv⟩ := hserved.resolve_left hr
    obtain ⟨h1, h2, hcase⟩ := @resolve_spec _ _ iStrEqual _ _
      ⟨s.calls, cb, holdRef⟩ now hs hv
    rw [he]
    refine h.enter hr' ?_ rfl ?_ ?_ ?_
    · simp only [Client.waiting, he, Endpoint.waiting_eq h1]
      rfl
    · intro e' he'
      cases he'
      rw [h1, h2]
      exact h.size e he
    · intro ev hev
      rcases List.mem_cons.mp hev with rfl | hev
      · rfl
      rcases hcase with ⟨-, results, hl⟩ | ⟨-, hl⟩
      · rw [hl] at hev
        rcases List.mem_cons.mp hev with rfl | hev
        · rfl
        · rw [List.mem_singleton.mp hev]
          rfl
      · rw [hl] at hev
        cases hev
    · rcases hcase with ⟨hn, results, hl⟩ | ⟨hn, hl⟩
      · refine .inl ⟨hn, .inl ⟨holdRef, results, ?_⟩⟩
        exact congrArg (Event.call s.calls holdRef :: ·) hl
      · refine .inr ⟨hostname, _, hn, rfl, ?_⟩
        exact congrArg (Event.call s.calls holdRef :: ·) hl
  | request generate newRequest newCallback sent now =>
    simp only [DNSClient.step]
    cases he : s.endpoint with
    | none => exact hid
    | some e =>
      cases hr : s.resolving with
      | none => exact hid
      | some p =>
        obtain ⟨hostname, c⟩ := p
        obtain ⟨e', hq, hw, hsize⟩ := @request_spec _ _ _ _ _ generate _ _ _ now (h.size e he)
          (hserved e hostname c he hr)
        dsimp only
        rw [hq]
        refine h.leave hr ?_ rfl rfl ?_
        · simpa [Client.waiting, he] using hw
        · intro e'' he''
          cases he''
          exact hsize
  | recv packet now =>
    simp only [DNSClient.step]
    cases he : s.endpoint with
    | none => exact hid
    | some e =>
      obtain ⟨out, hw, hev, hsize⟩ := e.onRecv_spec packet now (h.size e he)
      dsimp only
      rw [hev]
      refine h.answer ?_ rfl rfl ?_
      · simpa [Client.waiting, he] using hw
      · intro e' he'
        cases he'
        exact hsize
  | tick now post =>
    simp only [DNSClient.step]
    cases he : s.endpoint with
    | none => exact hid
    | some e =>
      obtain ⟨out, hw, hev, hsize⟩ := e.onTick_spec now post (h.size e he)
      dsimp only
      rw [hev]
      refine h.answer ?_ rfl rfl ?_
      · simpa [Client.waiting, he] using hw
      · intro e' he'
        cases he'
        exact hsize
  | shutdown =>
    simp only [DNSClient.step, List.append_nil]
    refine h.same ?_ rfl rfl ?_
    · cases he : s.endpoint <;> simp [Client.waiting, he, Endpoint.waiting]
    · intro e' he'
      obtain ⟨e, he, rfl⟩ := Option.map_eq_some_iff.mp he'
      exact h.size e he
  | finalize =>
    simp only [DNSClient.step]
    split
    · exact hid
    · cases he : s.endpoint with
      | none => exact hid
      | some e =>
        dsimp only
        rw [e.onFinalize_spec (h.size e he)]
        refine h.answer ?_ rfl rfl ?_
        · simp [Client.waiting, he, Function.comp_def]
        · intro e' he'
          cases he'

theorem Inv.start (present : Bool) : Inv (start present : Client α) [] := by
  have hw : (DNSClient.start present : Client α).waiting = [] := by
    cases present <;> rfl
  refine ⟨by simp [hw], by simp [hw], fun _ _ h => ?_, fun t ht => ?_, fun _ _ => rfl, fun e he => ?_⟩
  · cases h
  · cases ht
  · cases present
    · cases he
    · cases he
      rfl

theorem Inv.run {present : Bool} {inputs : List (Input α)}
    (h : Guarded (DNSClient.step numeric iStrEqual) (Served numeric iStrEqual) (DNSClient.start present)
      inputs) :
    Inv (run numeric iStrEqual present inputs).1 (run numeric iStrEqual present inputs).2 :=
  exec_inv Inv (fun _ _ i hi hok => hi.step i hok) inputs _ [] (Inv.start present) h

theorem countP_trace {t : Nat} {p : Event α → Bool} (hp : ∀ e, p e = true → e.ticket = t)
    (log : List (Event α)) : (trace t log).countP p = log.countP p := by
  rw [trace, List.countP_filter]
  refine List.countP_congr fun e _ => ?_
  simp only [Bool.and_eq_true, decide_eq_true_eq]
  exact ⟨And.left, fun h => ⟨h, hp e h⟩⟩

theorem callbacks_trace (t : Nat) (log : List (Event α)) :
    callbacks t (trace t log) = callbacks t log :=
  countP_trace (fun e he => by cases e <;> simp_all [Event.ticket]) log

theorem addRefs_trace (t : Nat) (log : List (Event α)) : addRefs t (trace t log) = addRefs t log :=
  countP_trace (fun e he => by cases e <;> simp_all [Event.ticket]) log

theorem releaseRefs_trace (t : Nat) (log : List (Event α)) :
    releaseRefs t (trace t log) = releaseRefs t log :=
  countP_trace (fun e he => by cases e <;> simp_all [Event.ticket]) log

theorem Answered.counts {t : Nat} {l : List (Event α)} (h : Answered t l) :
    .returned t false ∉ l ∧ callbacks t l = 1 ∧ releaseRefs t l = addRefs t l ∧ addRefs t l ≤ 1 := by
  rcases h with ⟨hold, results, rfl⟩ | ⟨⟨u, cb, hold⟩, results, rfl, rfl⟩
  · simp [callbacks, releaseRefs, addRefs]
  · cases hold <;> simp [callbacks, releaseRefs, addRefs, waitingTrace, Callback.hold, Callback.answer]

theorem waitingTrace_counts (c : Callback α) :
    .returned c.ticket false ∉ waitingTrace c ∧ callbacks c.ticket (waitingTrace c) = 0 ∧
      addRefs c.ticket (waitingTrace c) = c.ref.toNat ∧ .releaseRef c.ticket ∉ waitingTrace c := by
  obtain ⟨u, cb, hold⟩ := c
  cases hold <;> simp [callbacks, addRefs, waitingTrace, Callback.hold]

/-- The reference goes right after the callback. -/
theorem Answered.after {t : Nat} {l a b : List (Event α)} (h : Answered t l)
    (hl : l = a ++ .releaseRef t :: b) : callbacks t a = 1 := by
  have hm : .releaseRef t ∈ l := by
    rw [hl]
    exact List.mem_append_right _ List.mem_cons_self
  rcases h with ⟨hold, results, rfl⟩ | ⟨⟨u, cb, hold⟩, results, rfl, rfl⟩
  · simp at hm
  · cases hold
    · simp [waitingTrace, Callback.hold, Callback.answer] at hm
    · have hl : [Event.call u true, .addRef u, .returned u true, .callback u results] ++
          .releaseRef u :: [] = a ++ .releaseRef u :: b := hl
      rw [← ((List.append_cons_inj_of_notMem (by simp) (by simp)).mp hl).1]
      simp [callbacks]

namespace Inv

variable {s : Client α} {log : List (Event α)}

theorem not_failed (h : Inv s log) (t : Nat) : .returned t false ∉ log := by
  intro hm
  rw [← mem_trace rfl] at hm
  by_cases ht : t < s.calls
  swap
  · rw [Event.ticket, h.fresh t (by omega)] at hm
    cases hm
  by_cases hw : ∃ c ∈ s.waiting, c.ticket = t
  · obtain ⟨c, hc, rfl⟩ := hw
    rw [Event.ticket, (h.wait c hc).2] at hm
    exact (waitingTrace_counts c).1 hm
  by_cases hr : ∃ hostname c, s.resolving = some (hostname, c) ∧ c.ticket = t
  · obtain ⟨hostname, c, hc, rfl⟩ := hr
    rw [Event.ticket, (h.inside hostname c hc).2.2] at hm
    simp at hm
  · exact (h.rest t ht (fun c hc he => hw ⟨c, hc, he⟩) fun n c hc he => hr ⟨n, c, hc, he⟩).counts.1 hm

/-- A call that has returned true was answered, or its callback is with a request. -/
theorem of_returned (h : Inv s log) {t : Nat} (hm : .returned t true ∈ log) :
    Answered t (trace t log) ∨ ∃ c ∈ s.waiting, c.ticket = t ∧ trace t log = waitingTrace c := by
  rw [← mem_trace rfl] at hm
  by_cases ht : t < s.calls
  swap
  · rw [Event.ticket, h.fresh t (by omega)] at hm
    cases hm
  by_cases hw : ∃ c ∈ s.waiting, c.ticket = t
  · obtain ⟨c, hc, rfl⟩ := hw
    exact .inr ⟨c, hc, rfl, (h.wait c hc).2⟩
  by_cases hr : ∃ hostname c, s.resolving = some (hostname, c) ∧ c.ticket = t
  · obtain ⟨hostname, c, hc, rfl⟩ := hr
    rw [Event.ticket, (h.inside hostname c hc).2.2] at hm
    simp at hm
  · exact .inl (h.rest t ht (fun c hc he => hw ⟨c, hc, he⟩) fun n c hc he => hr ⟨n, c, hc, he⟩)

theorem promise (h : Inv s log) : Promise (s.endpoint = none) log := by
  have hcounts : ∀ {t}, Answered t (trace t log) →
      callbacks t log = 1 ∧ releaseRefs t log = addRefs t log ∧ addRefs t log ≤ 1 := by
    intro t ha
    have := ha.counts.2
    rwa [callbacks_trace, releaseRefs_trace, addRefs_trace] at this
  have hzero : ∀ c : Callback α, trace c.ticket log = waitingTrace c → callbacks c.ticket log = 0 := by
    intro c htr
    rw [← callbacks_trace, htr]
    exact (waitingTrace_counts c).2.1
  refine ⟨fun t ht => ?_, fun hfin t ht => ?_, fun t ht => absurd ht (h.not_failed t), ?_, ?_, ?_⟩
  · rcases h.of_returned ht with ha | ⟨c, -, rfl, htr⟩
    · exact (hcounts ha).1.le
    · rw [hzero c htr]
      omega
  · rcases h.of_returned ht with ha | ⟨c, hc, -⟩
    · exact (hcounts ha).1
    · rw [Client.waiting, hfin] at hc
      cases hc
  · intro t hcall ht h0
    rcases h.of_returned ht with ha | ⟨c, -, rfl, htr⟩
    · have := (hcounts ha).1
      omega
    · rw [← mem_trace rfl, Event.ticket, htr] at hcall
      have href : c.ref = true := by
        cases hr : c.ref with
        | true => rfl
        | false => simp [waitingTrace, Callback.hold, hr] at hcall
      obtain ⟨-, -, hadd, hrel⟩ := waitingTrace_counts c
      rw [← addRefs_trace, ← releaseRefs_trace, htr, hadd, href]
      refine ⟨rfl, List.countP_eq_zero.mpr fun e he hp => hrel ?_⟩
      cases e <;> simp_all
  · intro t ht h1
    rcases h.of_returned ht with ha | ⟨c, -, rfl, htr⟩
    · exact (hcounts ha).2
    · rw [hzero c htr] at h1
      omega
  · intro t a b ht hlog
    have htrace : trace t log = trace t a ++ .releaseRef t :: trace t b := by
      rw [hlog, trace_append]
      simp [trace, Event.ticket]
    rcases h.of_returned ht with ha | ⟨c, -, rfl, htr⟩
    · rw [← callbacks_trace]
      exact ha.after htrace
    · refine absurd ?_ (waitingTrace_counts c).2.2.2
      rw [← htr, htrace]
      exact List.mem_append_right _ List.mem_cons_self

end Inv

theorem mem_fail (t : Nat) :
    .callback t [] ∈ (fail t : List (Event α)) ∧ .returned t false ∈ (fail t : List (Event α)) := by
  simp [fail]

/-- A call that is not served runs its callback and returns false. -/
theorem Inv.step_of_not_served {s : Client α} {log : List (Event α)} (h : Inv s log) {i : Input α}
    (hi : ¬ Served numeric iStrEqual s i) :
    ∃ t, .callback t [] ∈ (DNSClient.step numeric iStrEqual s i).2 ∧
      .returned t false ∈ (DNSClient.step numeric iStrEqual s i).2 := by
  cases i with
  | resolve hostname cb holdRef now =>
    simp only [Served, not_or, not_exists, not_and] at hi
    obtain ⟨hr, hno⟩ := hi
    refine ⟨s.calls, ?_⟩
    simp only [DNSClient.step, if_neg hr]
    have hfail := @mem_fail α s.calls
    cases he : s.endpoint with
    | none => exact ⟨List.mem_cons_of_mem _ hfail.1, List.mem_cons_of_mem _ hfail.2⟩
    | some e =>
      have hres : (resolve numeric iStrEqual e hostname ⟨s.calls, cb, holdRef⟩ now).2.2 = fail s.calls := by
        cases hs : e.shutdown with
        | true => simp [resolve, hs]
        | false =>
          obtain ⟨hn, hv⟩ := hno e he hs
          have hn : numeric hostname = none := by simpa using hn
          simp [resolve, hs, hn, hv]
      dsimp only
      rw [hres]
      exact ⟨List.mem_cons_of_mem _ hfail.1, List.mem_cons_of_mem _ hfail.2⟩
  | request generate newRequest newCallback sent now =>
    simp only [Served, not_forall] at hi
    obtain ⟨e, hostname, c, he, hr, hi⟩ := hi
    refine ⟨c.ticket, ?_⟩
    have hfail := @mem_fail α c.ticket
    simp only [DNSClient.step, he, hr, request]
    cases hj : joinPending iStrEqual hostname c e.requestList with
    | some reqs =>
      rw [if_pos (joinPending_exists hj)] at hi
      dsimp only
      rw [if_neg hi]
      exact hfail
    | none =>
      have hnot := joinPending_eq_none.mp hj
      rw [if_neg fun ⟨req, hreq, ht⟩ => by rw [hnot req hreq] at ht; cases ht] at hi
      dsimp only
      by_cases hroom : dnsreqMaxSimul ≤ e.requestQueueSize
      · rw [if_pos hroom]
        exact hfail
      obtain ⟨id, hid⟩ := @getUnusedID_isSome (e.requestList.map (·.id)) generate (by
        rw [List.length_map, ← h.size e he]
        omega)
      rw [if_neg hroom, hid]
      dsimp only
      by_cases hnew : (!newRequest || !newCallback) = true
      · rw [if_pos hnew]
        exact hfail
      · have hsent : sent = false := by
          by_contra hsent
          have hnew : newRequest = true ∧ newCallback = true := by simpa using hnew
          exact hi ⟨by omega, hnew.1, hnew.2, by simpa using hsent⟩
        rw [if_neg hnew, hsent]
        exact ⟨List.mem_append_right _ hfail.1, List.mem_append_right _ hfail.2⟩
  | recv packet now => exact absurd trivial hi
  | tick now post => exact absurd trivial hi
  | shutdown => exact absurd trivial hi
  | finalize => exact absurd trivial hi

theorem Inv.guarded (inputs : List (Input α)) : ∀ {s : Client α} {log : List (Event α)}, Inv s log →
    (∀ t, .returned t false ∈ log ++ (exec (DNSClient.step numeric iStrEqual) s inputs).2 →
      callbacks t (log ++ (exec (DNSClient.step numeric iStrEqual) s inputs).2) = 0) →
    Guarded (DNSClient.step numeric iStrEqual) (Served numeric iStrEqual) s inputs := by
  induction inputs with
  | nil => exact fun _ _ => trivial
  | cons i inputs ih =>
    intro s log h hnever
    rw [exec_cons_snd] at hnever
    have hi : Served numeric iStrEqual s i := by
      by_contra hi
      obtain ⟨t, hc, hr⟩ := h.step_of_not_served hi
      have h0 := hnever t (List.mem_append_right _ (List.mem_append_left _ hr))
      have := List.countP_eq_zero.mp h0 (.callback t [])
        (List.mem_append_right _ (List.mem_append_left _ hc))
      simp at this
    refine ⟨hi, ih (h.step i hi) ?_⟩
    simpa only [List.append_assoc] using hnever

variable (numeric iStrEqual)

/-- The comment over `Resolve` holds of exactly the runs in which every call is served. -/
theorem dns_callbacks (present : Bool) (inputs : List (Input α)) :
    Promise ((run numeric iStrEqual present inputs).1.endpoint = none)
        (run numeric iStrEqual present inputs).2 ↔
      Guarded (step numeric iStrEqual) (Served numeric iStrEqual) (start present) inputs := by
  constructor
  · intro h
    exact (Inv.start present).guarded inputs h.never
  · intro h
    exact (Inv.run h).promise

/-- The callback of a hostname that is not valid runs, and the call returns false. -/
theorem not_dns_callbacks :
    ¬ ∀ (numeric : List u8 → Option Nat) (iStrEqual : List u8 → List u8 → Bool) (present : Bool)
      (inputs : List (Input Nat)), Promise ((run numeric iStrEqual present inputs).1.endpoint = none)
        (run numeric iStrEqual present inputs).2 := by
  intro h
  have h0 := (h (fun _ => none) (fun a b => a = b) true
    [.resolve [45] (fun _ => false) false 0]).never 0 (by simp [run, exec, step, start, resolve,
      isValidHostname, validLabels, hostnameMaxlen, isAlphabetic, isNumeric, fail])
  revert h0
  simp [run, exec, step, start, resolve, isValidHostname, validLabels, hostnameMaxlen, isAlphabetic,
    isNumeric, fail, callbacks]

end Runs

end Libcat.Net.DNSClient
