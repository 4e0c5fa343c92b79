import Libcat.Lang.LinkedLists
import Libcat.Lib.Places
import Libcat.Net.DNSClient

/-!
# The request list and the cache of the DNS client

`DNSClientEndpoint` keeps the requests that are sent in one intrusive list and the answers in another
one, with a counter beside each. An object is a number, in the order of the `new`s; `freed` has those
that were deleted.

The request lock is held by `OnRecv` and `OnTick` up to their ends and by the second half of `Resolve`,
the cache lock by its first half and inside of `CacheAdd`. So a round of the loop in `OnTick` is a step
here, and `Resolve` two. Callbacks do not call the client. The clock counts milliseconds and does not
wrap; what `msec_fast` returns does. `post` stands for the `Acquire` and the `Write` of a packet.

- `Bookkeeping`: where the objects are, and what the two lists are like.
- `Kept`: the inputs that do not lose an object and do not make two requests for one name.
-/

namespace Libcat.Net.DNSRequests

open Intrusive Lang.LinkedLists Places Run
open DNSClient (Request Callback Packet isValidHostname getUnusedID dnsreqMaxSimul dnscacheMaxReqs
  dnscacheMaxResp dnscacheTimeout)
open DNSClient.Endpoint (timedOut repostDue)

/-! ## Names -/

def toLower (c : u8) : u8 := if 65 ≤ c ∧ c ≤ 90 then c + 32 else c

/-- `_stricmp(A, B) == 0`, and `strcasecmp(A, B) == 0`. -/
def equalIgnoringCase (a b : List u8) : Bool := a.map toLower = b.map toLower

/-- `a += 'a' - 'Z'` for a letter from `A` to `Z`. -/
def convert (c : u8) : u8 := if 65 ≤ c ∧ c ≤ 90 then c + (97 - 90) else c

/-- The body of `iStrEqual` for an unknown compiler. -/
def iStrEqualLoop : List u8 → List u8 → Bool
  | [], [] => true
  | a :: as, b :: bs => if convert a ≠ convert b then false else iStrEqualLoop as bs
  | _, _ => false

/-- `unknown` is `CAT_UNKNOWN_BUILTIN_ISTRCMP`. -/
def iStrEqual (unknown : Bool) (a b : List u8) : Bool :=
  if unknown then iStrEqualLoop a b else equalIgnoringCase a b

/-! ## The endpoint -/

/-- `added` is the time at which `CacheAdd` took an object. -/
structure DNSClientEndpoint (α : Type*) where
  shutdown : Bool
  links : Links Nat
  requestList : DList Nat
  requestQueueSize : Int
  cacheList : DList Nat
  cacheSize : Int
  req : Nat → Request α
  created : Nat
  freed : List Nat
  clock : Nat
  added : Nat → Nat
  /-- The call that is between its two halves. -/
  resolving : Option (List u8 × Callback α)
  /-- The parameter and the iterator of an `OnTick` that is running. -/
  ticking : Option (u32 × DListIterator Nat)

/-- Does a packet get its buffer, and is it written? -/
structure Post where
  acquired : Bool
  written : Bool

/-- `elapsed` is the time that passes until the clock is read. -/
inductive Input (α : Type*) where
  | resolve (hostname : List u8) (c : Callback α) (elapsed : Nat)
  | request (generate : Nat → u16) (newRequest newCallback : Bool) (post : Post) (elapsed : Nat)
  | recv (packet : Packet α) (elapsed : Nat)
  | tick (now : u32)
  | next (post : Post) (elapsed : Nat)
  | shutdown

section Model

variable {α : Type*}

namespace DNSClientEndpoint

variable (s : DNSClientEndpoint α)

/-- Time passes. -/
def wait (elapsed : Nat) : DNSClientEndpoint α := { s with clock := s.clock + elapsed }

/-- `Clock::msec_fast()`. -/
def msecFast : u32 := BitVec.ofNat 32 s.clock

/-- The objects that a loop over a list visits. -/
def items (l : DList Nat) : List Nat :=
  (DListIterator.start s.links.next l.head).visit s.links.next (s.created + 1)

def setRequest (a : Nat) (f : Request α → Request α) : DNSClientEndpoint α :=
  { s with req := Function.update s.req a (f (s.req a)) }

/-- `delete` of a request. -/
def delete (a : Nat) : DNSClientEndpoint α := { s with freed := a :: s.freed }

/-- `_request_list.Erase(ii)` and `--_request_queue_size`. -/
def eraseRequest (a : Nat) : DNSClientEndpoint α :=
  let r := s.requestList.erase s.links a
  { s with links := r.1, requestList := r.2, requestQueueSize := s.requestQueueSize - 1 }

/-- `_request_list.PushBack(req)` and `++_request_queue_size`. -/
def pushRequest (a : Nat) : DNSClientEndpoint α :=
  let r := s.requestList.pushBack s.links a
  { s with links := r.1, requestList := r.2, requestQueueSize := s.requestQueueSize + 1 }

/-- `_cache_list.Erase(ii)`. -/
def eraseCached (a : Nat) : DNSClientEndpoint α :=
  let r := s.cacheList.erase s.links a
  { s with links := r.1, cacheList := r.2 }

/-! ### The cache -/

/-- The room that `CacheAdd` makes. -/
def cacheRoom : DNSClientEndpoint α :=
  if s.cacheSize < dnscacheMaxReqs then { s with cacheSize := s.cacheSize + 1 }
  else
    match s.cacheList.tail with
    | none => s
    | some ii => (s.eraseCached ii).delete ii

def cacheAdd (a elapsed : Nat) : DNSClientEndpoint α :=
  let s := s.cacheRoom.wait elapsed
  let r := s.cacheList.pushFront s.links a
  let s := { s with links := r.1, cacheList := r.2, added := Function.update s.added a s.clock }
  s.setRequest a fun r => { r with lastPostTime := s.msecFast }

/-- The rest of the cache goes, from an entry that has expired on. -/
def expire (a : Nat) : DNSClientEndpoint α :=
  let r := s.cacheList.chop s.links (some a)
  let s := { s with links := r.1, cacheList := r.2.1 }
  (s.items r.2.2).foldl (fun s ii => { s.delete ii with cacheSize := s.cacheSize - 1 }) s

/-- The loop of `CacheGet`. -/
def cacheScan (unknown : Bool) (hostname : List u8) : List Nat → DNSClientEndpoint α × Option Nat
  | [] => (s, none)
  | ii :: rest =>
    if (s.msecFast - (s.req ii).lastPostTime).toInt < dnscacheTimeout then
      if iStrEqual unknown (s.req ii).hostname hostname then (s, some ii)
      else cacheScan unknown hostname rest
    else (s.expire ii, none)

def cacheGet (unknown : Bool) (hostname : List u8) (elapsed : Nat) :
    DNSClientEndpoint α × Option Nat :=
  let s := s.wait elapsed
  s.cacheScan unknown hostname (s.items s.cacheList)

def cacheKill (a : Nat) : DNSClientEndpoint α :=
  let s := s.eraseCached a
  { s with cacheSize := s.cacheSize - 1 }.delete a

/-! ### Requests -/

/-- `PostDNSPacket`; `last_post_time` is written once there is a buffer. -/
def postDNSPacket (a : Nat) (now : u32) (post : Post) : DNSClientEndpoint α × Bool :=
  if post.acquired then (s.setRequest a fun r => { r with lastPostTime := now }, post.written)
  else (s, false)

def performLookup (a : Nat) (post : Post) (elapsed : Nat) : DNSClientEndpoint α × Bool :=
  let s := s.wait elapsed
  let now := s.msecFast
  match s.postDNSPacket a now post with
  | (s, false) => (s, false)
  | (s, true) => ((s.setRequest a fun r => { r with firstPostTime := now }).pushRequest a, true)

def pullRequest (id : u16) : DNSClientEndpoint α × Option Nat :=
  match (s.items s.requestList).find? fun ii => (s.req ii).id = id with
  | none => (s, none)
  | some ii => (s.eraseRequest ii, some ii)

def notifyRequesters (a elapsed : Nat) : DNSClientEndpoint α :=
  if (s.req a).callbacks.any fun c => c.cb (s.req a).responses then
    (s.setRequest a fun r => { r with callbacks := [] }).cacheAdd a elapsed
  else s.delete a

/-- `OnRecv`, for one buffer. -/
def onRecv (packet : Packet α) (elapsed : Nat) : DNSClientEndpoint α :=
  let qr := packet.hdr >>> 15 &&& 1
  let opcode := packet.hdr >>> 11 &&& 0x000F
  let rcode := packet.hdr &&& 0x000F
  if !packet.fromServer || packet.dataBytes < 12 || qr = 0 || opcode ≠ 0 then s
  else
    match s.pullRequest packet.id with
    | (s, none) => s
    | (s, some a) =>
      let responses := if rcode = 0 then packet.answers.take dnscacheMaxResp else []
      (s.setRequest a fun r => { r with responses := responses }).notifyRequesters a elapsed

/-- Does the round give up the request? It may post its packet again first. -/
def repost (now : u32) (a : Nat) (post : Post) : DNSClientEndpoint α × Bool :=
  if timedOut now (s.req a) then (s, true)
  else if repostDue now (s.req a) then
    match s.postDNSPacket a now post with
    | (s, posted) => (s, !posted)
  else (s, false)

/-- A round of the loop in `OnTick`, with the `++` behind it, or its end. -/
def onTick (now : u32) (it : DListIterator Nat) (post : Post) (elapsed : Nat) : DNSClientEndpoint α :=
  match it.item with
  | none => { s with ticking := none }
  | some ii =>
    match s.repost now ii post with
    | (s, lost) =>
      let s := if lost then (s.eraseRequest ii).notifyRequesters ii elapsed else s
      { s with ticking := some (now, it.advance s.links.next) }

/-! ### `Resolve` -/

/-- `Resolve` up to the release of the cache lock. -/
def resolve (unknown : Bool) (numeric : List u8 → Option α) (hostname : List u8) (c : Callback α)
    (elapsed : Nat) : DNSClientEndpoint α :=
  if s.shutdown || (numeric hostname).isSome || !isValidHostname hostname then s
  else
    match s.cacheGet unknown hostname elapsed with
    | (s, some cached) => if c.cb (s.req cached).responses then s else s.cacheKill cached
    | (s, none) => { s with resolving := some (hostname, c) }

/-- `new DNSRequest`: the object that comes next. -/
def newRequest : DNSClientEndpoint α := { s with created := s.created + 1 }

/-- The pending request of a name. -/
def pending (unknown : Bool) (hostname : List u8) : Option Nat :=
  (s.items s.requestList).find? fun ii => iStrEqual unknown (s.req ii).hostname hostname

/-- `Resolve` from the request lock on. -/
def request (unknown : Bool) (hostname : List u8) (c : Callback α) (generate : Nat → u16)
    (newRequest newCallback : Bool) (post : Post) (elapsed : Nat) : DNSClientEndpoint α :=
  match s.pending unknown hostname with
  | some ii =>
    if newCallback then s.setRequest ii fun r => { r with callbacks := c :: r.callbacks } else s
  | none =>
    if dnsreqMaxSimul ≤ s.requestQueueSize then s
    else
      match getUnusedID ((s.items s.requestList).map fun ii => (s.req ii).id) generate with
      -- the loop for an identifier always ends, `DNSClient.getUnusedID_isSome`
      | none => s
      | some id =>
        if !newRequest then s
        else if !newCallback then s.newRequest.delete s.created
        else
          let a := s.created
          let s := s.newRequest.setRequest a fun r =>
            { r with hostname := hostname, callbacks := [c], id := id, responses := [] }
          -- without a packet the reference goes, and the request does not
          (s.performLookup a post elapsed).1

end DNSClientEndpoint

/-! ### Steps -/

/-- What has to wait for a lock changes nothing. -/
def step (unknown : Bool) (numeric : List u8 → Option α) (s : DNSClientEndpoint α) :
    Input α → DNSClientEndpoint α × List Unit
  | .resolve hostname c elapsed =>
    match s.resolving with
    | none => (s.resolve unknown numeric hostname c elapsed, [])
    | some _ => (s, [])
  | .request generate newRequest newCallback post elapsed =>
    match s.ticking, s.resolving with
    | none, some (hostname, c) =>
      ({ s.request unknown hostname c generate newRequest newCallback post elapsed with
        resolving := none }, [])
    | _, _ => (s, [])
  | .recv packet elapsed =>
    match s.ticking with
    | none => (s.onRecv packet elapsed, [])
    | some _ => (s, [])
  | .tick now =>
    match s.ticking with
    | none =>
      ({ s with ticking := some (now, DListIterator.start s.links.next s.requestList.head) }, [])
    | some _ => (s, [])
  | .next post elapsed =>
    match s.ticking with
    | none => (s, [])
    | some (now, it) => (s.onTick now it post elapsed, [])
  | .shutdown => ({ s with shutdown := true }, [])

/-- After `OnInitialize`. What is in the memory of the objects does not matter. -/
def initial (req : Nat → Request α) (clock : Nat) : DNSClientEndpoint α where
  shutdown := false
  links := ⟨fun _ => none, fun _ => none⟩
  requestList := ⟨none, none⟩
  requestQueueSize := 0
  cacheList := ⟨none, none⟩
  cacheSize := 0
  req := req
  created := 0
  freed := []
  clock := clock
  added := fun _ => 0
  resolving := none
  ticking := none

/-- A run of an endpoint. -/
def run (unknown : Bool) (numeric : List u8 → Option α) (req : Nat → Request α) (clock : Nat)
    (inputs : List (Input α)) : DNSClientEndpoint α :=
  (exec (step unknown numeric) (initial req clock) inputs).1

/-! ## What is kept -/

inductive Place where
  | requestList | cacheList | freed

/-- The objects in a place. -/
def objects (reqs cache freed : List Nat) : Place → List Nat
  | .requestList => reqs
  | .cacheList => cache
  | .freed => freed

/-- `reqs` and `cache` are the lists, and every object that was created is in one place. -/
structure Bookkeeping (unknown : Bool) (s : DNSClientEndpoint α) (reqs cache : List Nat) : Prop where
  requestList : Holds s.links s.requestList reqs
  cacheList : Holds s.links s.cacheList cache
  placed : Placed (objects reqs cache s.freed) (· < s.created)
  ids : reqs.Pairwise fun a b => (s.req a).id ≠ (s.req b).id
  hostnames : reqs.Pairwise fun a b =>
    equalIgnoringCase (s.req a).hostname (s.req b).hostname = false
  requestQueueSize : s.requestQueueSize = reqs.length
  cacheSize : s.cacheSize = cache.length
  most : cache.length ≤ dnscacheMaxReqs
  ages : cache.Pairwise fun a b => s.added b ≤ s.added a
  /-- What `CacheGet` deletes has expired. -/
  expired : ∀ hostname elapsed a,
    a ∈ (s.cacheGet unknown hostname elapsed).1.freed → a ∉ s.freed →
      dnscacheTimeout ≤ ((s.cacheGet unknown hostname elapsed).1.clock : Int) - s.added a

/-- Where a request is made, its first packet is sent, and no pending request has its name in another
case. -/
def Kept (unknown : Bool) (s : DNSClientEndpoint α) : Input α → Prop
  | .request _ newRequest newCallback post _ =>
    s.ticking = none → ∀ hostname c, s.resolving = some (hostname, c) →
      s.pending unknown hostname = none → s.requestQueueSize < dnsreqMaxSimul →
      newRequest = true → newCallback = true →
        (post.acquired = true ∧ post.written = true) ∧
          ∀ a ∈ s.items s.requestList, equalIgnoringCase (s.req a).hostname hostname = false
  | _ => True

end Model

/-! ## Lists and places -/

section Lists

variable {α : Type*} {s : DNSClientEndpoint α} {hand reqs cache : List Nat} {a : Nat}

/-- The objects in a place, or in the hand of the function that runs. -/
def held (hand reqs cache freed : List Nat) : Option Place → List Nat
  | none => hand
  | some p => objects reqs cache freed p

/-- What holds of the lists while a function has the objects of `hand`. -/
structure Inv (s : DNSClientEndpoint α) (hand reqs cache : List Nat) : Prop where
  requestList : Holds s.links s.requestList reqs
  cacheList : Holds s.links s.cacheList cache
  placed : Placed (held hand reqs cache s.freed) (· < s.created)
  ids : reqs.Pairwise fun a b => (s.req a).id ≠ (s.req b).id
  hostnames : reqs.Pairwise fun a b =>
    equalIgnoringCase (s.req a).hostname (s.req b).hostname = false
  requestQueueSize : s.requestQueueSize = reqs.length
  ages : cache.Pairwise fun a b => s.added b ≤ s.added a
  stamped : ∀ a ∈ cache, (s.req a).lastPostTime = BitVec.ofNat 32 (s.added a) ∧ s.added a ≤ s.clock

/-- The counter of the cache. -/
def Sized (s : DNSClientEndpoint α) (cache : List Nat) : Prop :=
  s.cacheSize = cache.length ∧ cache.length ≤ dnscacheMaxReqs

namespace Inv

theorem not_mem_cache (h : Inv s hand reqs cache) (ha : a ∈ reqs) : a ∉ cache := fun hc => by
  have := h.placed.one (i := some .requestList) (j := some .cacheList) ha hc
  cases this

theorem not_mem_of_hand (h : Inv s hand reqs cache) (ha : a ∈ hand) : a ∉ reqs ∧ a ∉ cache := by
  constructor
  · intro hr
    have := h.placed.one (i := none) (j := some .requestList) ha hr
    cases this
  · intro hc
    have := h.placed.one (i := none) (j := some .cacheList) ha hc
    cases this

theorem length_le (h : Inv s hand reqs cache) (p : Option Place) :
    (held hand reqs cache s.freed p).length ≤ s.created := by
  have hsub : List.Subperm _ (List.range s.created) := (h.placed.nodup p).subperm fun a ha =>
    List.mem_range.mpr ((h.placed.mem_iff a).mpr ⟨p, ha⟩)
  simpa using hsub.length_le

/-- The loops over the two lists. -/
theorem items_requestList (h : Inv s hand reqs cache) : s.items s.requestList = reqs :=
  visit_of_seg h.requestList.forward _ (Nat.lt_succ_of_le (h.length_le (some .requestList)))

theorem items_cacheList (h : Inv s hand reqs cache) : s.items s.cacheList = cache :=
  visit_of_seg h.cacheList.forward _ (Nat.lt_succ_of_le (h.length_le (some .cacheList)))

/-- A member of a request on neither list, or one that the lists do not look at. -/
theorem setRequest (h : Inv s hand reqs cache) {f : Request α → Request α} (hc : a ∉ cache)
    (hr : a ∈ reqs → (f (s.req a)).id = (s.req a).id ∧ (f (s.req a)).hostname = (s.req a).hostname) :
    Inv (s.setRequest a f) hand reqs cache := by
  have hsame : ∀ b ∈ reqs, ((s.setRequest a f).req b).id = (s.req b).id ∧
      ((s.setRequest a f).req b).hostname = (s.req b).hostname := by
    intro b hb
    simp only [DNSClientEndpoint.setRequest]
    by_cases hba : b = a
    · subst hba
      rw [Function.update_self]
      exact hr hb
    · rw [Function.update_of_ne hba]
      exact ⟨rfl, rfl⟩
  refine ⟨h.requestList, h.cacheList, h.placed, ?_, ?_, h.requestQueueSize, h.ages, ?_⟩
  · refine h.ids.imp_of_mem fun ha hb hne => ?_
    rw [(hsame _ ha).1, (hsame _ hb).1]
    exact hne
  · refine h.hostnames.imp_of_mem fun ha hb hne => ?_
    rw [(hsame _ ha).2, (hsame _ hb).2]
    exact hne
  · intro b hb
    have hba : b ≠ a := fun he => hc (he ▸ hb)
    simp only [DNSClientEndpoint.setRequest, Function.update_of_ne hba]
    exact h.stamped b hb

theorem wait (h : Inv s hand reqs cache) (elapsed : Nat) : Inv (s.wait elapsed) hand reqs cache :=
  { h with
    requestList := h.requestList
    stamped := fun a ha => ⟨(h.stamped a ha).1, Nat.le_add_right_of_le (h.stamped a ha).2⟩ }

theorem eraseRequest {l1 l2 : List Nat} (h : Inv s hand (l1 ++ a :: l2) cache) :
    Inv (s.eraseRequest a) (a :: hand) (l1 ++ l2) cache := by
  have hmem : a ∈ l1 ++ a :: l2 := by simp
  have hnd := h.requestList.forward.nodup
  have ha : a ∉ l1 := fun ha => (List.nodup_append.mp hnd).2.2 a ha a List.mem_cons_self rfl
  have hsub : (l1 ++ l2).Sublist (l1 ++ a :: l2) := (List.sublist_cons_self a l2).append_left l1
  have herase := h.requestList.erase hnd hmem
  rw [onSequence_erase ha] at herase
  refine ⟨herase, ?_, ?_, h.ids.sublist hsub, h.hostnames.sublist hsub, ?_, h.ages, h.stamped⟩
  · exact h.requestList.erase_other h.cacheList (fun b hb hr => h.not_mem_cache hr hb) hmem
  · refine h.placed.move (i := some .requestList) (j := none) (by simp) [a] (l1 ++ l2)
      List.perm_middle (.refl _) (.refl _) ?_
    rintro (_ | _ | _ | _) hi hj
    · exact absurd rfl hj
    · exact absurd rfl hi
    · rfl
    · rfl
  · simp only [DNSClientEndpoint.eraseRequest, h.requestQueueSize, List.length_append, List.length_cons]
    push_cast
    ring

theorem eraseCached {l1 l2 : List Nat} (h : Inv s hand reqs (l1 ++ a :: l2)) :
    Inv (s.eraseCached a) (a :: hand) reqs (l1 ++ l2) := by
  have hmem : a ∈ l1 ++ a :: l2 := by simp
  have hnd := h.cacheList.forward.nodup
  have ha : a ∉ l1 := fun ha => (List.nodup_append.mp hnd).2.2 a ha a List.mem_cons_self rfl
  have hsub : (l1 ++ l2).Sublist (l1 ++ a :: l2) := (List.sublist_cons_self a l2).append_left l1
  have herase := h.cacheList.erase hnd hmem
  rw [onSequence_erase ha] at herase
  refine ⟨?_, herase, ?_, h.ids, h.hostnames, h.requestQueueSize, h.ages.sublist hsub,
    fun b hb => h.stamped b (hsub.subset hb)⟩
  · exact h.cacheList.erase_other h.requestList (fun b hb => h.not_mem_cache hb) hmem
  · refine h.placed.move (i := some .cacheList) (j := none) (by simp) [a] (l1 ++ l2)
      List.perm_middle (.refl _) (.refl _) ?_
    rintro (_ | _ | _ | _) hi hj
    · exact absurd rfl hj
    · rfl
    · exact absurd rfl hi
    · rfl

theorem delete (h : Inv s (a :: hand) reqs cache) : Inv (s.delete a) hand reqs cache := by
  refine { h with placed := ?_ }
  refine h.placed.move (i := none) (j := some .freed) (by simp) [a] hand (.refl _) (.refl _) (.refl _) ?_
  rintro (_ | _ | _ | _) hi hj
  · exact absurd rfl hi
  · rfl
  · rfl
  · exact absurd rfl hj

end Inv

end Lists

/-! ## The cache -/

section Cache

variable {α : Type*} {s : DNSClientEndpoint α} {hand reqs cache : List Nat} {a : Nat}

/-- A time that seems to be over by the wrapped clock is over. -/
theorem le_of_stale {clock added : Nat} (h : added ≤ clock)
    (hs : dnscacheTimeout ≤ (BitVec.ofNat 32 clock - BitVec.ofNat 32 added).toInt) :
    dnscacheTimeout ≤ (clock : Int) - added := by
  have hsub : BitVec.ofNat 32 clock - BitVec.ofNat 32 added = BitVec.ofNat 32 (clock - added) := by
    apply BitVec.eq_of_toNat_eq
    rw [BitVec.toNat_sub, BitVec.toNat_ofNat, BitVec.toNat_ofNat, BitVec.toNat_ofNat]
    omega
  have hint : (BitVec.ofNat 32 (clock - added)).toInt ≤ ((clock - added : Nat) : Int) := by
    rw [BitVec.toInt_eq_toNat_cond, BitVec.toNat_ofNat]
    have hmod := Nat.mod_le (clock - added) (2 ^ 32)
    split <;> omega
  rw [hsub] at hs
  omega

theorem cacheRoom_of_lt (h : s.cacheSize < dnscacheMaxReqs) :
    s.cacheRoom = { s with cacheSize := s.cacheSize + 1 } := if_pos h

theorem cacheRoom_of_le (h : (dnscacheMaxReqs : Int) ≤ s.cacheSize) (ha : s.cacheList.tail = some a) :
    s.cacheRoom = (s.eraseCached a).delete a := by
  rw [DNSClientEndpoint.cacheRoom, if_neg (not_lt.mpr h), ha]

/-- The counter is one ahead of the list then. -/
theorem Inv.cacheRoom (h : Inv s hand reqs cache) (hs : Sized s cache) :
    ∃ cache', Inv s.cacheRoom hand reqs cache' ∧ s.cacheRoom.cacheSize = cache'.length + 1 ∧
      cache'.length < dnscacheMaxReqs := by
  obtain ⟨hsize, hle⟩ := hs
  by_cases hlt : cache.length < dnscacheMaxReqs
  · rw [cacheRoom_of_lt (by omega)]
    exact ⟨cache, { h with requestList := h.requestList }, by rw [hsize], hlt⟩
  · -- the last entry goes
    obtain rfl | ⟨cache, a, hcache⟩ := List.eq_nil_or_concat cache
    · exact absurd (by decide) hlt
    rw [List.concat_eq_append] at hcache
    subst hcache
    have htail : s.cacheList.tail = some a := by
      rw [h.cacheList.tail_eq, List.getLast?_concat]
    rw [cacheRoom_of_le (by omega) htail]
    have hlen : (cache ++ [a]).length = cache.length + 1 := by simp
    refine ⟨cache ++ [], h.eraseCached.delete, ?_, ?_⟩
    · simp only [DNSClientEndpoint.delete, DNSClientEndpoint.eraseCached, List.append_nil]
      omega
    · rw [List.append_nil]
      omega

theorem Inv.cacheAdd (h : Inv s (a :: hand) reqs cache) (hs : Sized s cache) (elapsed : Nat) :
    ∃ cache', Inv (s.cacheAdd a elapsed) hand reqs cache' ∧ Sized (s.cacheAdd a elapsed) cache' := by
  obtain ⟨cache, h, hsize, hlt⟩ := h.cacheRoom hs
  replace h := h.wait elapsed
  obtain ⟨har, hac⟩ := h.not_mem_of_hand List.mem_cons_self
  have hne : ∀ b, b ∈ reqs ∨ b ∈ cache → b ≠ a := by
    rintro b (hb | hb) rfl
    · exact har hb
    · exact hac hb
  simp only [DNSClientEndpoint.cacheAdd]
  refine ⟨a :: cache, ⟨?_, ?_, ?_, ?_, ?_, h.requestQueueSize, ?_, ?_⟩, hsize, hlt⟩
  · exact h.cacheList.pushFront_other h.requestList (fun b hb => h.not_mem_cache hb) har
  · exact h.cacheList.pushFront h.cacheList.forward.nodup hac
  · refine h.placed.move (i := none) (j := some .cacheList) (by simp) [a] hand (.refl _) (.refl _)
      (.refl _) ?_
    rintro (_ | _ | _ | _) hi hj
    · exact absurd rfl hi
    · rfl
    · exact absurd rfl hj
    · rfl
  · refine h.ids.imp_of_mem fun {b c} hb hc hbc => ?_
    simp only [DNSClientEndpoint.setRequest]
    rwa [Function.update_of_ne (hne b (.inl hb)), Function.update_of_ne (hne c (.inl hc))]
  · refine h.hostnames.imp_of_mem fun {b c} hb hc hbc => ?_
    simp only [DNSClientEndpoint.setRequest]
    rwa [Function.update_of_ne (hne b (.inl hb)), Function.update_of_ne (hne c (.inl hc))]
  · -- the clock is at least at the times that are in the list
    simp only [DNSClientEndpoint.setRequest]
    refine List.pairwise_cons.mpr ⟨fun b hb => ?_, h.ages.imp_of_mem fun {b c} hb hc hbc => ?_⟩
    · rw [Function.update_self, Function.update_of_ne (hne b (.inr hb))]
      exact (h.stamped b hb).2
    · rwa [Function.update_of_ne (hne b (.inr hb)), Function.update_of_ne (hne c (.inr hc))]
  · simp only [DNSClientEndpoint.setRequest]
    intro b hb
    rcases List.mem_cons.mp hb with rfl | hb
    · rw [Function.update_self, Function.update_self]
      exact ⟨rfl, le_rfl⟩
    · rw [Function.update_of_ne (hne b (.inr hb)), Function.update_of_ne (hne b (.inr hb))]
      exact h.stamped b hb

theorem Inv.notifyRequesters (h : Inv s (a :: hand) reqs cache) (hs : Sized s cache) (elapsed : Nat) :
    ∃ cache', Inv (s.notifyRequesters a elapsed) hand reqs cache' ∧
      Sized (s.notifyRequesters a elapsed) cache' := by
  obtain ⟨har, hac⟩ := h.not_mem_of_hand List.mem_cons_self
  unfold DNSClientEndpoint.notifyRequesters
  split
  · exact (h.setRequest hac fun ha => absurd ha har).cacheAdd hs elapsed
  · exact ⟨cache, h.delete, hs⟩

theorem Inv.cacheKill (h : Inv s hand reqs cache) (hs : Sized s cache) (ha : a ∈ cache) :
    ∃ cache', Inv (s.cacheKill a) hand reqs cache' ∧ Sized (s.cacheKill a) cache' := by
  obtain ⟨l1, l2, rfl⟩ := List.append_of_mem ha
  refine ⟨l1 ++ l2, { h.eraseCached.delete with requestList := h.eraseCached.requestList }, ?_⟩
  obtain ⟨hsize, hle⟩ := hs
  simp only [List.length_append, List.length_cons] at hsize hle
  constructor
  · simp only [DNSClientEndpoint.cacheKill, DNSClientEndpoint.delete, DNSClientEndpoint.eraseCached,
      List.length_append]
    push_cast at hsize ⊢
    omega
  · rw [List.length_append]
    omega

/-! ### Expiry -/

/-- The loop that deletes what was chopped off. -/
theorem foldl_delete (l : List Nat) (s : DNSClientEndpoint α) :
    l.foldl (fun s ii => { s.delete ii with cacheSize := s.cacheSize - 1 }) s =
      { s with freed := l.reverse ++ s.freed, cacheSize := s.cacheSize - l.length } := by
  induction l generalizing s with
  | nil => simp
  | cons a l ih =>
    rw [List.foldl_cons, ih]
    simp only [DNSClientEndpoint.delete, List.reverse_cons, List.append_assoc, List.singleton_append,
      List.length_cons]
    push_cast
    ring_nf

theorem Inv.expire_eq {l1 l2 : List Nat} (h : Inv s hand reqs (l1 ++ a :: l2)) :
    s.expire a = { s with
      links := (s.cacheList.chop s.links (some a)).1
      cacheList := (s.cacheList.chop s.links (some a)).2.1
      freed := (a :: l2).reverse ++ s.freed
      cacheSize := s.cacheSize - (a :: l2).length } := by
  have hchop := (h.cacheList.chop h.cacheList.forward.nodup).2
  have hlen := h.length_le (some .cacheList)
  simp only [held, objects, List.length_append] at hlen
  have hitems : (DListIterator.start (s.cacheList.chop s.links (some a)).1.next
      (s.cacheList.chop s.links (some a)).2.2.head).visit (s.cacheList.chop s.links (some a)).1.next
        (s.created + 1) = a :: l2 := visit_of_seg hchop.forward _ (by omega)
  simp only [DNSClientEndpoint.expire, DNSClientEndpoint.items, hitems]
  rw [foldl_delete]

theorem Inv.expire {l1 l2 : List Nat} (h : Inv s hand reqs (l1 ++ a :: l2))
    (hs : Sized s (l1 ++ a :: l2)) : Inv (s.expire a) hand reqs l1 ∧ Sized (s.expire a) l1 := by
  have hmem : a ∈ l1 ++ a :: l2 := by simp
  have hsub : l1.Sublist (l1 ++ a :: l2) := List.sublist_append_left _ _
  rw [h.expire_eq]
  refine ⟨⟨?_, (h.cacheList.chop h.cacheList.forward.nodup).1, ?_, h.ids, h.hostnames,
    h.requestQueueSize, h.ages.sublist hsub, fun b hb => h.stamped b (hsub.subset hb)⟩, ?_, ?_⟩
  · exact h.cacheList.chop_other h.requestList (fun b hb => h.not_mem_cache hb) hmem
  · refine h.placed.move (i := some .cacheList) (j := some .freed) (by simp) (a :: l2) l1
      List.perm_append_comm (.refl _) ((List.reverse_perm _).append_right _) ?_
    rintro (_ | _ | _ | _) hi hj
    · rfl
    · rfl
    · exact absurd rfl hi
    · exact absurd rfl hj
  · rw [hs.1, List.length_append]
    push_cast
    ring
  · exact le_trans hsub.length_le hs.2

/-- The ends of the loop of `CacheGet`. -/
theorem cacheScan_cases (unknown : Bool) (hostname : List u8) (l : List Nat) :
    s.cacheScan unknown hostname l = (s, none) ∨
      (∃ a ∈ l, s.cacheScan unknown hostname l = (s, some a)) ∨
      ∃ l1 a l2, l = l1 ++ a :: l2 ∧ s.cacheScan unknown hostname l = (s.expire a, none) ∧
        dnscacheTimeout ≤ (s.msecFast - (s.req a).lastPostTime).toInt := by
  induction l with
  | nil => exact .inl rfl
  | cons a l ih =>
    unfold DNSClientEndpoint.cacheScan
    split
    · split
      · exact .inr (.inl ⟨a, List.mem_cons_self, rfl⟩)
      · rcases ih with h | ⟨b, hb, h⟩ | ⟨l1, b, l2, rfl, h⟩
        · exact .inl h
        · exact .inr (.inl ⟨b, List.mem_cons_of_mem a hb, h⟩)
        · exact .inr (.inr ⟨a :: l1, b, l2, rfl, h⟩)
    · next hstale => exact .inr (.inr ⟨[], a, l, rfl, rfl, not_lt.mp hstale⟩)

theorem Inv.cacheGet_eq (h : Inv s hand reqs cache) (unknown : Bool) (hostname : List u8)
    (elapsed : Nat) :
    s.cacheGet unknown hostname elapsed = (s.wait elapsed).cacheScan unknown hostname cache := by
  rw [DNSClientEndpoint.cacheGet, (h.wait elapsed).items_cacheList]

theorem Inv.cacheGet (h : Inv s hand reqs cache) (hs : Sized s cache) (unknown : Bool)
    (hostname : List u8) (elapsed : Nat) :
    ∃ cache', Inv (s.cacheGet unknown hostname elapsed).1 hand reqs cache' ∧
      Sized (s.cacheGet unknown hostname elapsed).1 cache' ∧
      ∀ a ∈ (s.cacheGet unknown hostname elapsed).2, a ∈ cache' := by
  rw [h.cacheGet_eq]
  replace h := h.wait elapsed
  rcases cacheScan_cases (s := s.wait elapsed) unknown hostname cache with
    he | ⟨a, ha, he⟩ | ⟨l1, a, l2, rfl, he, -⟩
  · rw [he]
    exact ⟨cache, h, hs, fun a ha => by cases ha⟩
  · rw [he]
    exact ⟨cache, h, hs, fun b hb => Option.some.inj hb ▸ ha⟩
  · rw [he]
    obtain ⟨hexp, hsize⟩ := h.expire hs
    exact ⟨l1, hexp, hsize, fun a ha => by cases ha⟩

/-- What is deleted is at least as old as the first entry that has expired. -/
theorem Inv.expired (h : Inv s hand reqs cache) (unknown : Bool) (hostname : List u8) (elapsed : Nat)
    (ha : a ∈ (s.cacheGet unknown hostname elapsed).1.freed) (hnew : a ∉ s.freed) :
    dnscacheTimeout ≤ ((s.cacheGet unknown hostname elapsed).1.clock : Int) - s.added a := by
  rw [h.cacheGet_eq] at ha ⊢
  replace h := h.wait elapsed
  rcases cacheScan_cases (s := s.wait elapsed) unknown hostname cache with
    he | ⟨b, -, he⟩ | ⟨l1, b, l2, rfl, he, hstale⟩
  · rw [he] at ha
    exact absurd ha hnew
  · rw [he] at ha
    exact absurd ha hnew
  · rw [he, h.expire_eq] at ha ⊢
    have hmem : a ∈ b :: l2 := by
      rcases List.mem_append.mp ha with ha | ha
      · exact List.mem_reverse.mp ha
      · exact absurd ha hnew
    obtain ⟨hstamp, hle⟩ := h.stamped b (by simp)
    have hold : (s.wait elapsed).added a ≤ (s.wait elapsed).added b := by
      rcases List.mem_cons.mp hmem with rfl | hmem
      · exact le_rfl
      · exact (List.pairwise_cons.mp (List.pairwise_append.mp h.ages).2.1).1 a hmem
    rw [hstamp] at hstale
    exact (le_of_stale hle hstale).trans (Int.sub_le_sub_left (Int.ofNat_le.mpr hold) _)

end Cache

/-! ## Requests -/

section Requests

variable {α : Type*} {s : DNSClientEndpoint α} {hand reqs cache : List Nat} {a : Nat}

theorem equalIgnoringCase_comm (a b : List u8) : equalIgnoringCase a b = equalIgnoringCase b a := by
  simp only [equalIgnoringCase, eq_comm]

theorem Inv.newRequest (h : Inv s hand reqs cache) : Inv s.newRequest (s.created :: hand) reqs cache := by
  refine { h with placed := ?_ }
  refine h.placed.add (a := s.created) (j := none) (lt_irrefl _) (fun b => ?_) (.refl _) ?_
  · change b < s.created + 1 ↔ _
    omega
  · rintro (_ | _) hj
    · exact absurd rfl hj
    · rfl

theorem Inv.pushRequest (h : Inv s (a :: hand) reqs cache)
    (hnew : ∀ b ∈ reqs, (s.req a).id ≠ (s.req b).id ∧
      equalIgnoringCase (s.req a).hostname (s.req b).hostname = false) :
    Inv (s.pushRequest a) hand (a :: reqs) cache := by
  obtain ⟨har, hac⟩ := h.not_mem_of_hand List.mem_cons_self
  refine ⟨h.requestList.pushFront h.requestList.forward.nodup har, ?_, ?_,
    List.pairwise_cons.mpr ⟨fun b hb => (hnew b hb).1, h.ids⟩,
    List.pairwise_cons.mpr ⟨fun b hb => (hnew b hb).2, h.hostnames⟩, ?_, h.ages, h.stamped⟩
  · exact h.requestList.pushFront_other h.cacheList (fun b hb hr => h.not_mem_cache hr hb) hac
  · refine h.placed.move (i := none) (j := some .requestList) (by simp) [a] hand (.refl _) (.refl _)
      (.refl _) ?_
    rintro (_ | _ | _ | _) hi hj
    · exact absurd rfl hi
    · exact absurd rfl hj
    · rfl
    · rfl
  · simp only [DNSClientEndpoint.pushRequest, h.requestQueueSize, List.length_cons]
    push_cast
    rfl

/-! ### Frames -/

section Frames

variable (s) (a elapsed : Nat) (post : Post)

@[simp] theorem setRequest_ticking (f : Request α → Request α) :
    (s.setRequest a f).ticking = s.ticking := rfl

@[simp] theorem delete_ticking : (s.delete a).ticking = s.ticking := rfl

@[simp] theorem wait_ticking : (s.wait elapsed).ticking = s.ticking := rfl

@[simp] theorem cacheRoom_ticking : s.cacheRoom.ticking = s.ticking := by
  unfold DNSClientEndpoint.cacheRoom
  split
  · rfl
  · split <;> rfl

@[simp] theorem cacheAdd_ticking : (s.cacheAdd a elapsed).ticking = s.ticking :=
  cacheRoom_ticking s

@[simp] theorem notifyRequesters_ticking : (s.notifyRequesters a elapsed).ticking = s.ticking := by
  unfold DNSClientEndpoint.notifyRequesters
  split <;> simp

@[simp] theorem expire_ticking : (s.expire a).ticking = s.ticking := by
  simp only [DNSClientEndpoint.expire]
  rw [foldl_delete]

@[simp] theorem cacheGet_ticking (unknown : Bool) (hostname : List u8) :
    (s.cacheGet unknown hostname elapsed).1.ticking = s.ticking := by
  unfold DNSClientEndpoint.cacheGet
  rcases cacheScan_cases (s := s.wait elapsed) unknown hostname
    ((s.wait elapsed).items (s.wait elapsed).cacheList) with he | ⟨b, -, he⟩ | ⟨l1, b, l2, -, he, -⟩ <;>
    simp [he]

end Frames

/-! ### The first packet -/

theorem performLookup_of_sent {post : Post} (h : post.acquired = true ∧ post.written = true) (a elapsed : Nat) :
    (s.performLookup a post elapsed).1 =
      (((s.wait elapsed).setRequest a fun r => { r with lastPostTime := (s.wait elapsed).msecFast }).setRequest
        a fun r => { r with firstPostTime := (s.wait elapsed).msecFast }).pushRequest a := by
  simp only [DNSClientEndpoint.performLookup, DNSClientEndpoint.postDNSPacket, h.1, h.2, if_true]

theorem performLookup_of_not_sent {post : Post} (h : ¬ (post.acquired = true ∧ post.written = true))
    (a elapsed : Nat) :
    ∃ req clock, (s.performLookup a post elapsed).1 = { s with req := req, clock := clock } := by
  simp only [DNSClientEndpoint.performLookup, DNSClientEndpoint.postDNSPacket]
  cases ha : post.acquired with
  | false => exact ⟨_, _, rfl⟩
  | true =>
    have hw : post.written = false := by
      cases hw : post.written with
      | false => rfl
      | true => exact absurd ⟨ha, hw⟩ h
    simp only [hw, if_true]
    exact ⟨_, _, rfl⟩

theorem performLookup_ticking (post : Post) (a elapsed : Nat) :
    (s.performLookup a post elapsed).1.ticking = s.ticking := by
  by_cases h : post.acquired = true ∧ post.written = true
  · rw [performLookup_of_sent h]
    rfl
  · obtain ⟨req, clock, he⟩ := performLookup_of_not_sent (s := s) h a elapsed
    rw [he]

/-- A request that is sent is pending. -/
theorem Inv.performLookup (h : Inv s (a :: hand) reqs cache) {post : Post}
    (hsent : post.acquired = true ∧ post.written = true) (elapsed : Nat)
    (hnew : ∀ b ∈ reqs, (s.req a).id ≠ (s.req b).id ∧
      equalIgnoringCase (s.req a).hostname (s.req b).hostname = false) :
    Inv (s.performLookup a post elapsed).1 hand (a :: reqs) cache := by
  obtain ⟨har, hac⟩ := h.not_mem_of_hand List.mem_cons_self
  rw [performLookup_of_sent hsent]
  refine (((h.wait elapsed).setRequest hac fun ha => absurd ha har).setRequest hac fun ha =>
    absurd ha har).pushRequest fun b hb => ?_
  have hba : b ≠ a := fun he => har (he ▸ hb)
  simp only [DNSClientEndpoint.setRequest, Function.update_self, Function.update_of_ne hba]
  exact hnew b hb

theorem sized_performLookup (hs : Sized s cache) (post : Post) (a elapsed : Nat) :
    Sized (s.performLookup a post elapsed).1 cache := by
  by_cases h : post.acquired = true ∧ post.written = true
  · rw [performLookup_of_sent h]
    exact hs
  · obtain ⟨req, clock, he⟩ := performLookup_of_not_sent (s := s) h a elapsed
    rw [he]
    exact hs

/-! ### The second half of `Resolve` -/

/-- Where a request is made. -/
theorem request_of_new {unknown : Bool} {hostname : List u8} {c : Callback α} {generate : Nat → u16}
    {id : u16} (hpending : s.pending unknown hostname = none)
    (hroom : s.requestQueueSize < dnsreqMaxSimul)
    (hid : getUnusedID ((s.items s.requestList).map fun ii => (s.req ii).id) generate = some id)
    (post : Post) (elapsed : Nat) :
    s.request unknown hostname c generate true true post elapsed =
      ((s.newRequest.setRequest s.created fun r =>
        { r with hostname := hostname, callbacks := [c], id := id, responses := [] }).performLookup
          s.created post elapsed).1 := by
  simp only [DNSClientEndpoint.request, hpending, if_neg (not_le.mpr hroom), hid, Bool.not_true,
    Bool.false_eq_true, if_false]

theorem request_ticking (unknown : Bool) (hostname : List u8) (c : Callback α) (generate : Nat → u16)
    (newRequest newCallback : Bool) (post : Post) (elapsed : Nat) :
    (s.request unknown hostname c generate newRequest newCallback post elapsed).ticking = s.ticking := by
  unfold DNSClientEndpoint.request
  split
  · split <;> rfl
  · split
    · rfl
    · split
      · rfl
      · split
        · rfl
        · split
          · rfl
          · exact performLookup_ticking ..

/-- An identifier is found for a request that has room. -/
theorem Inv.exists_id (h : Inv s hand reqs cache) (hroom : s.requestQueueSize < dnsreqMaxSimul)
    (generate : Nat → u16) :
    ∃ id, getUnusedID ((s.items s.requestList).map fun ii => (s.req ii).id) generate = some id := by
  apply DNSClient.getUnusedID_isSome
  rw [List.length_map, h.items_requestList]
  have := h.requestQueueSize
  omega

/-- A new request is distinct from the pending ones. -/
theorem Inv.create (h : Inv s [] reqs cache) {hostname : List u8} {generate : Nat → u16} {id : u16}
    (hid : getUnusedID ((s.items s.requestList).map fun ii => (s.req ii).id) generate = some id)
    (hname : ∀ b ∈ reqs, equalIgnoringCase (s.req b).hostname hostname = false) {post : Post}
    (hsent : post.acquired = true ∧ post.written = true) (c : Callback α) (elapsed : Nat) :
    Inv ((s.newRequest.setRequest s.created fun r =>
      { r with hostname := hostname, callbacks := [c], id := id, responses := [] }).performLookup
        s.created post elapsed).1 [] (s.created :: reqs) cache := by
  obtain ⟨har, hac⟩ := h.newRequest.not_mem_of_hand List.mem_cons_self
  refine (h.newRequest.setRequest hac fun ha => absurd ha har).performLookup hsent elapsed fun b hb => ?_
  have hba : b ≠ s.created := fun he => har (he ▸ hb)
  simp only [DNSClientEndpoint.setRequest, Function.update_self, Function.update_of_ne hba]
  refine ⟨fun he => DNSClient.not_mem_of_getUnusedID hid ?_, ?_⟩
  · rw [h.items_requestList, he]
    exact List.mem_map_of_mem hb
  · rw [equalIgnoringCase_comm]
    exact hname b hb

theorem Inv.request (h : Inv s [] reqs cache) (hs : Sized s cache) {unknown : Bool}
    {hostname : List u8} (c : Callback α) (generate : Nat → u16) {newRequest newCallback : Bool}
    {post : Post} (elapsed : Nat)
    (hkept : s.pending unknown hostname = none → s.requestQueueSize < dnsreqMaxSimul →
      newRequest = true → newCallback = true → (post.acquired = true ∧ post.written = true) ∧
        ∀ a ∈ s.items s.requestList, equalIgnoringCase (s.req a).hostname hostname = false) :
    ∃ reqs', Inv (s.request unknown hostname c generate newRequest newCallback post elapsed) [] reqs'
        cache ∧
      Sized (s.request unknown hostname c generate newRequest newCallback post elapsed) cache := by
  cases hpending : s.pending unknown hostname with
  | some ii =>
    have hii : ii ∈ reqs := by
      have hmem := List.mem_of_find?_eq_some hpending
      rwa [h.items_requestList] at hmem
    simp only [DNSClientEndpoint.request, hpending]
    split
    · exact ⟨reqs, h.setRequest (h.not_mem_cache hii) fun _ => ⟨rfl, rfl⟩, hs⟩
    · exact ⟨reqs, h, hs⟩
  | none =>
    by_cases hroom : s.requestQueueSize < dnsreqMaxSimul
    · obtain ⟨id, hid⟩ := h.exists_id hroom generate
      cases newRequest with
      | false =>
        simp only [DNSClientEndpoint.request, hpending, if_neg (not_le.mpr hroom), hid]
        exact ⟨reqs, h, hs⟩
      | true =>
        cases newCallback with
        | false =>
          simp only [DNSClientEndpoint.request, hpending, if_neg (not_le.mpr hroom), hid]
          exact ⟨reqs, h.newRequest.delete, hs⟩
        | true =>
          obtain ⟨hsent, hname⟩ := hkept hpending hroom rfl rfl
          rw [h.items_requestList] at hname
          rw [request_of_new hpending hroom hid]
          refine ⟨_, h.create hid hname hsent c elapsed, sized_performLookup ?_ post _ elapsed⟩
          exact hs
    · simp only [DNSClientEndpoint.request, hpending, if_pos (not_lt.mp hroom)]
      exact ⟨reqs, h, hs⟩

end Requests

/-! ## Steps -/

section Steps

variable {α : Type*} {s : DNSClientEndpoint α} {reqs cache : List Nat} {a : Nat}

/-- An `OnTick` that is running has the rest of the list in front of it. -/
def Ticking (s : DNSClientEndpoint α) (reqs : List Nat) : Prop :=
  ∀ t ∈ s.ticking, ∃ l1 l2, reqs = l1 ++ l2 ∧ t.2.item = l2.head? ∧ t.2.next = l2.tail.head?

theorem ticking_of_none (h : s.ticking = none) (reqs : List Nat) : Ticking s reqs := fun t ht => by
  rw [h] at ht
  cases ht

/-- The item behind the first one of the rest. -/
theorem bind_next {next : Nat → Option Nat} {p : Option Nat} {l rest : List Nat}
    (h : Seg next p (l ++ rest) none) : rest.head?.bind next = rest.tail.head? := by
  cases rest with
  | nil => rfl
  | cons a rest => exact h.next_eq

theorem advance_next {link : Nat → Option Nat} {p : Option Nat} {l1 l2 : List Nat}
    {it : DListIterator Nat} (h : Seg link p (l1 ++ l2) none) (hnext : it.next = l2.head?) :
    (it.advance link).next = l2.tail.head? := by
  rw [DListIterator.advance, hnext]
  exact bind_next h

/-- What holds between two steps. -/
def Good (s : DNSClientEndpoint α) : Prop :=
  ∃ reqs cache, Inv s [] reqs cache ∧ Sized s cache ∧ Ticking s reqs

theorem Inv.bookkeeping (h : Inv s [] reqs cache) (hs : Sized s cache) (unknown : Bool) :
    Bookkeeping unknown s reqs cache where
  requestList := h.requestList
  cacheList := h.cacheList
  placed := h.placed.of_none rfl
  ids := h.ids
  hostnames := h.hostnames
  requestQueueSize := h.requestQueueSize
  cacheSize := hs.1
  most := hs.2
  ages := h.ages
  expired hostname elapsed _ := h.expired unknown hostname elapsed

/-! ### Responses -/

theorem Inv.onRecv (h : Inv s [] reqs cache) (hs : Sized s cache) (packet : Packet α) (elapsed : Nat) :
    ∃ reqs' cache', Inv (s.onRecv packet elapsed) [] reqs' cache' ∧
      Sized (s.onRecv packet elapsed) cache' := by
  simp only [DNSClientEndpoint.onRecv, DNSClientEndpoint.pullRequest]
  split
  · exact ⟨reqs, cache, h, hs⟩
  · cases hfind : (s.items s.requestList).find? fun ii => (s.req ii).id = packet.id with
    | none => exact ⟨reqs, cache, h, hs⟩
    | some ii =>
      have hii := List.mem_of_find?_eq_some hfind
      rw [h.items_requestList] at hii
      obtain ⟨l1, l2, rfl⟩ := List.append_of_mem hii
      have herase := h.eraseRequest
      obtain ⟨hr, hc⟩ := herase.not_mem_of_hand List.mem_cons_self
      have hset := herase.setRequest (f := fun r => { r with
        responses := if packet.hdr &&& 0x000F = 0 then packet.answers.take dnscacheMaxResp else [] })
        hc fun ha => absurd ha hr
      exact ⟨_, hset.notifyRequesters hs elapsed⟩

theorem onRecv_ticking (packet : Packet α) (elapsed : Nat) :
    (s.onRecv packet elapsed).ticking = s.ticking := by
  simp only [DNSClientEndpoint.onRecv, DNSClientEndpoint.pullRequest]
  split
  · rfl
  · cases (s.items s.requestList).find? fun ii => (s.req ii).id = packet.id with
    | none => rfl
    | some ii =>
      rw [notifyRequesters_ticking]
      rfl

/-! ### Ticks -/

/-- A packet that is posted again. -/
theorem repost_cases (s : DNSClientEndpoint α) (now : u32) (a : Nat) (post : Post) :
    (s.repost now a post).1 = s ∨
      (s.repost now a post).1 = s.setRequest a fun r => { r with lastPostTime := now } := by
  simp only [DNSClientEndpoint.repost, DNSClientEndpoint.postDNSPacket]
  split
  · exact .inl rfl
  · split
    · cases post.acquired with
      | true => exact .inr rfl
      | false => exact .inl rfl
    · exact .inl rfl

theorem Inv.repost (h : Inv s [] reqs cache) (hs : Sized s cache) (ha : a ∈ reqs) (now : u32)
    (post : Post) : Inv (s.repost now a post).1 [] reqs cache ∧ Sized (s.repost now a post).1 cache := by
  rcases repost_cases s now a post with he | he
  · rw [he]
    exact ⟨h, hs⟩
  · rw [he]
    exact ⟨h.setRequest (h.not_mem_cache ha) fun _ => ⟨rfl, rfl⟩, hs⟩

/-- A round of the loop goes on with the rest of the list, whether the request stays in it or not. -/
theorem Inv.onTick (h : Inv s [] reqs cache) (hs : Sized s cache) {now : u32} {it : DListIterator Nat}
    {l1 l2 : List Nat} (hreqs : reqs = l1 ++ l2) (hitem : it.item = l2.head?)
    (hnext : it.next = l2.tail.head?) (post : Post) (elapsed : Nat) :
    Good (s.onTick now it post elapsed) := by
  subst hreqs
  cases l2 with
  | nil =>
    rw [List.head?_nil] at hitem
    simp only [DNSClientEndpoint.onTick, hitem]
    exact ⟨l1 ++ [], cache, { h with requestList := h.requestList }, hs, ticking_of_none rfl _⟩
  | cons ii l2 =>
    rw [List.head?_cons] at hitem
    rw [List.tail_cons] at hnext
    simp only [DNSClientEndpoint.onTick, hitem]
    obtain ⟨hpost, hsize⟩ := h.repost hs (List.mem_append_right l1 List.mem_cons_self) now post
    generalize s.repost now ii post = r at hpost hsize
    obtain ⟨s, lost⟩ := r
    cases lost with
    | false =>
      refine ⟨l1 ++ ii :: l2, cache, { hpost with requestList := hpost.requestList }, hsize, ?_⟩
      rintro t ⟨⟩
      have hseg := hpost.requestList.forward
      rw [List.append_cons] at hseg ⊢
      exact ⟨l1 ++ [ii], l2, rfl, hnext, advance_next hseg hnext⟩
    | true =>
      obtain ⟨cache', hinv, hsized⟩ := hpost.eraseRequest.notifyRequesters hsize elapsed
      refine ⟨l1 ++ l2, cache', { hinv with requestList := hinv.requestList }, hsized, ?_⟩
      rintro t ⟨⟩
      exact ⟨l1, l2, rfl, hnext, advance_next hinv.requestList.forward hnext⟩

/-! ### The first half of `Resolve` -/

theorem Inv.resolve (h : Inv s [] reqs cache) (hs : Sized s cache) (unknown : Bool)
    (numeric : List u8 → Option α) (hostname : List u8) (c : Callback α) (elapsed : Nat) :
    ∃ cache', Inv (s.resolve unknown numeric hostname c elapsed) [] reqs cache' ∧
      Sized (s.resolve unknown numeric hostname c elapsed) cache' := by
  unfold DNSClientEndpoint.resolve
  split
  · exact ⟨cache, h, hs⟩
  · obtain ⟨cache', hget, hsized, hmem⟩ := h.cacheGet hs unknown hostname elapsed
    generalize s.cacheGet unknown hostname elapsed = r at hget hsized hmem
    obtain ⟨s, cached⟩ := r
    cases cached with
    | none => exact ⟨cache', { hget with requestList := hget.requestList }, hsized⟩
    | some cached =>
      simp only
      split
      · exact ⟨cache', hget, hsized⟩
      · exact hget.cacheKill hsized (hmem cached rfl)

theorem resolve_ticking (unknown : Bool) (numeric : List u8 → Option α) (hostname : List u8)
    (c : Callback α) (elapsed : Nat) :
    (s.resolve unknown numeric hostname c elapsed).ticking = s.ticking := by
  unfold DNSClientEndpoint.resolve
  split
  · rfl
  · have hget := cacheGet_ticking s elapsed unknown hostname
    generalize s.cacheGet unknown hostname elapsed = r at hget
    obtain ⟨s', cached⟩ := r
    cases cached with
    | none => exact hget
    | some cached =>
      simp only
      split
      · exact hget
      · exact hget

/-! ### All of them -/

theorem Good.step (h : Good s) {unknown : Bool} (numeric : List u8 → Option α) {input : Input α}
    (hkept : Kept unknown s input) : Good (step unknown numeric s input).1 := by
  obtain ⟨reqs, cache, hinv, hsized, htick⟩ := h
  cases input with
  | resolve hostname c elapsed =>
    simp only [DNSRequests.step]
    cases s.resolving with
    | some call => exact ⟨reqs, cache, hinv, hsized, htick⟩
    | none =>
      obtain ⟨cache', hinv', hsized'⟩ := hinv.resolve hsized unknown numeric hostname c elapsed
      refine ⟨reqs, cache', hinv', hsized', fun t ht => htick t ?_⟩
      rwa [resolve_ticking] at ht
  | request generate newRequest newCallback post elapsed =>
    simp only [DNSRequests.step]
    cases htn : s.ticking with
    | some t => exact ⟨reqs, cache, hinv, hsized, htick⟩
    | none =>
      cases hcall : s.resolving with
      | none => exact ⟨reqs, cache, hinv, hsized, htick⟩
      | some call =>
        obtain ⟨hostname, c⟩ := call
        obtain ⟨reqs', hinv', hsized'⟩ :=
          hinv.request hsized c generate elapsed (hkept htn hostname c hcall)
        refine ⟨reqs', cache, { hinv' with requestList := hinv'.requestList }, hsized',
          ticking_of_none ?_ reqs'⟩
        exact (request_ticking ..).trans htn
  | recv packet elapsed =>
    simp only [DNSRequests.step]
    cases htn : s.ticking with
    | some t => exact ⟨reqs, cache, hinv, hsized, htick⟩
    | none =>
      obtain ⟨reqs', cache', hinv', hsized'⟩ := hinv.onRecv hsized packet elapsed
      exact ⟨reqs', cache', hinv', hsized', ticking_of_none ((onRecv_ticking packet elapsed).trans htn) _⟩
  | tick now =>
    simp only [DNSRequests.step]
    cases s.ticking with
    | some t => exact ⟨reqs, cache, hinv, hsized, htick⟩
    | none =>
      refine ⟨reqs, cache, { hinv with requestList := hinv.requestList }, hsized, ?_⟩
      rintro t ⟨⟩
      have hseg := hinv.requestList.forward
      have hnext : reqs.head?.bind s.links.next = reqs.tail.head? := bind_next (l := []) hseg
      rw [← hseg.head] at hnext
      exact ⟨[], reqs, rfl, hseg.head, hnext⟩
  | next post elapsed =>
    simp only [DNSRequests.step]
    cases htn : s.ticking with
    | none => exact ⟨reqs, cache, hinv, hsized, htick⟩
    | some t =>
      obtain ⟨l1, l2, hreqs, hitem, hnext⟩ := htick t htn
      exact hinv.onTick hsized hreqs hitem hnext post elapsed
  | shutdown => exact ⟨reqs, cache, { hinv with requestList := hinv.requestList }, hsized, htick⟩

/-- An object that is created and put nowhere is not in a place. -/
theorem Inv.not_bookkeeping (h : Inv s [] reqs cache) {s' : DNSClientEndpoint α} {unknown : Bool}
    (hlinks : s'.links = s.links) (hrequestList : s'.requestList = s.requestList)
    (hcacheList : s'.cacheList = s.cacheList) (hfreed : s'.freed = s.freed)
    (hcreated : s.created < s'.created) (reqs' cache' : List Nat) :
    ¬ Bookkeeping unknown s' reqs' cache' := by
  intro hb
  have hreqs := hb.requestList
  have hcache := hb.cacheList
  rw [hlinks, hrequestList] at hreqs
  rw [hlinks, hcacheList] at hcache
  obtain rfl := hreqs.unique h.requestList
  obtain rfl := hcache.unique h.cacheList
  obtain ⟨p, hp⟩ := (hb.placed.mem_iff s.created).mp hcreated
  rw [hfreed] at hp
  exact absurd ((h.placed.mem_iff s.created).mpr ⟨some p, hp⟩) (lt_irrefl _)

/-- A step that is followed by the property kept it. -/
theorem Good.kept (h : Good s) {unknown : Bool} {numeric : List u8 → Option α} {input : Input α}
    (hb : ∃ reqs cache, Bookkeeping unknown (DNSRequests.step unknown numeric s input).1 reqs cache) :
    Kept unknown s input := by
  obtain ⟨reqs, cache, hinv, -, -⟩ := h
  obtain ⟨reqs', cache', hb⟩ := hb
  cases input with
  | request generate newRequest newCallback post elapsed =>
    intro htick hostname c hcall hpending hroom hreq hcb
    subst hreq hcb
    obtain ⟨id, hid⟩ := hinv.exists_id hroom generate
    simp only [DNSRequests.step, htick, hcall, request_of_new hpending hroom hid] at hb
    by_cases hsent : post.acquired = true ∧ post.written = true
    · refine ⟨hsent, ?_⟩
      -- the list has the new request in front
      obtain ⟨har, hac⟩ := hinv.newRequest.not_mem_of_hand List.mem_cons_self
      have hreqs := hb.requestList
      have hnames := hb.hostnames
      rw [performLookup_of_sent hsent] at hreqs hnames
      obtain rfl := hreqs.unique (hinv.requestList.pushFront hinv.requestList.forward.nodup har)
      rw [hinv.items_requestList]
      intro b hb
      have hba : b ≠ s.created := fun he => har (he ▸ hb)
      have hne := (List.pairwise_cons.mp hnames).1 b hb
      rw [equalIgnoringCase_comm] at hne
      simpa only [DNSClientEndpoint.pushRequest, DNSClientEndpoint.setRequest, DNSClientEndpoint.wait,
        DNSClientEndpoint.newRequest, Function.update_self, Function.update_of_ne hba] using hne
    · obtain ⟨req, clock, he⟩ := performLookup_of_not_sent (s := s.newRequest.setRequest s.created
        fun r => { r with hostname := hostname, callbacks := [c], id := id, responses := [] })
        hsent s.created elapsed
      rw [he] at hb
      refine absurd hb (hinv.not_bookkeeping ?_ ?_ ?_ ?_ ?_ reqs' cache')
      · rfl
      · rfl
      · rfl
      · rfl
      · exact Nat.lt_succ_self _
  | _ => trivial

theorem good_initial (req : Nat → Request α) (clock : Nat) : Good (initial req clock) := by
  refine ⟨[], [], ⟨⟨rfl, rfl⟩, ⟨rfl, rfl⟩, ⟨?_, ?_, ?_⟩, .nil, .nil, rfl, .nil, ?_⟩, ⟨rfl, by decide⟩,
    ticking_of_none rfl _⟩
  · rintro (_ | _ | _ | _) <;> exact List.nodup_nil
  · refine fun a => ⟨fun ha => absurd ha (Nat.not_lt_zero a), ?_⟩
    rintro ⟨_ | _ | _ | _, ha⟩ <;> exact absurd ha List.not_mem_nil
  · rintro (_ | _ | _ | _) j a ha <;> exact absurd ha List.not_mem_nil
  · exact fun a ha => absurd ha List.not_mem_nil

/-- **The requests and the cache of the client**, in every run: each request that was created is in one
of the request list, the cache and the freed objects, pending requests differ in their identifiers and in
their names, whatever the case of their letters, the counters are the lengths of the lists, and the cache
has 32 entries at most, the oldest at its end, of which only expired ones are chopped off. It is so in
every state that is reached exactly if each request that was made was sent, and under a name that was not
pending in another case. -/
theorem dns_requests (unknown : Bool) (numeric : List u8 → Option α) (req : Nat → Request α) (clock : Nat)
    (inputs : List (Input α)) :
    (∀ n, ∃ reqs cache, Bookkeeping unknown (run unknown numeric req clock (inputs.take n)) reqs cache) ↔
      Guarded (DNSRequests.step unknown numeric) (Kept unknown) (initial req clock) inputs :=
  holds_iff_guarded
    (P := fun s => ∃ reqs cache, Bookkeeping unknown s reqs cache)
    (fun _ ⟨reqs, cache, h, hs, _⟩ => ⟨reqs, cache, h.bookkeeping hs unknown⟩)
    (fun _ _ h _ hkept => h.step numeric hkept) (fun _ _ h _ hb => h.kept hb) inputs _
    (good_initial req clock) (guarded_true inputs _)

/-- A request whose first packet is not written is in no place. Where the compiler has no comparison of
its own, `a` and `A` are pending at once. -/
theorem not_dns_requests :
    (¬ ∀ n, ∃ reqs cache, Bookkeeping false (run (α := Unit) false (fun _ => none)
      (fun _ => ⟨0, 0, [], 0, [], []⟩) 0 (List.take n [.resolve [97] ⟨0, fun _ => true, true⟩ 0,
        .request (fun _ => 0) true true ⟨true, false⟩ 0])) reqs cache) ∧
    ¬ ∀ n, ∃ reqs cache, Bookkeeping true (run (α := Unit) true (fun _ => none)
      (fun _ => ⟨0, 0, [], 0, [], []⟩) 0 (List.take n [.resolve [97] ⟨0, fun _ => true, true⟩ 0,
        .request (fun _ => 0) true true ⟨true, true⟩ 0, .resolve [65] ⟨1, fun _ => true, true⟩ 0,
        .request (fun _ => 0) true true ⟨true, true⟩ 0])) reqs cache := by
  constructor
  · intro h
    obtain ⟨reqs, cache, hb⟩ := h 2
    obtain rfl : reqs = [] := hb.requestList.unique ⟨by decide, by decide⟩
    obtain rfl : cache = [] := hb.cacheList.unique ⟨by decide, by decide⟩
    obtain ⟨p, hp⟩ := (hb.placed.mem_iff 0).mp (by decide)
    cases p with
    | requestList => exact List.not_mem_nil hp
    | cacheList => exact List.not_mem_nil hp
    | freed => exact absurd hp (by decide)
  · intro h
    obtain ⟨reqs, cache, hb⟩ := h 4
    obtain rfl : reqs = [1, 0] := hb.requestList.unique ⟨by decide, by decide⟩
    exact absurd ((List.pairwise_cons.mp hb.hostnames).1 0 List.mem_cons_self) (by decide)

end Steps

end Libcat.Net.DNSRequests
