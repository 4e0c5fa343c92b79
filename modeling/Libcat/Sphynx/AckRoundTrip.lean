import Libcat.Sphynx.AckRead

/-!
# The round trip of an acknowledgement

`WriteACK` over the streams that have got reliable messages, as far as there is room, and `OnACK` of
what it wrote: the nodes that are removed are those that it acknowledges, all of which have been
received. Where the sent list of a stream is empty, `OnACK` skips the rollup.
-/

namespace Libcat.Sphynx

open Serial

section Writer

/-- What `WriteACK` writes of a stream: the rollup and the ranges. -/
structure AckPart where
  stream : Nat
  rollup : u32
  ranges : AckRanges

/-- The ids of the ranges. -/
def AckPart.ids (p : AckPart) : List (u32 × u32) := p.ranges.visited.map fun v => (v.1.id, v.2.id)

/-- The loop of `WriteACK` over the streams. -/
def writeAckStreams : List Nat → (Nat → RecvStream) → Nat →
    Option ((Nat → RecvStream) × List AckPart)
  | [], recv, _ => some (recv, [])
  | stream :: streams, recv, remaining =>
    if (recv stream).gotReliable then
      if remaining < 3 then some (recv, [])
      else
        match writeAckStream stream (recv stream) remaining with
        | none => none
        | some (s, r) =>
          (writeAckStreams streams (Function.update recv stream s) r.remaining).map fun w =>
            (w.1, ⟨stream, (recv stream).nextRecvExpectedId, r⟩ :: w.2)
    else writeAckStreams streams recv remaining

/-- `WriteACK`, without the header of its message. -/
def writeAck (maxPayloadBytes : Nat) (recv : Nat → RecvStream) :
    Option ((Nat → RecvStream) × List AckPart) :=
  writeAckStreams (List.range numStreams) recv (subU32 maxPayloadBytes maxMessageHeaderBytes)

/-- The bytes that are handed to `OnACK`. -/
def ackBytes (parts : List AckPart) : List u8 := parts.flatMap fun p => p.ranges.bytes

/-- A wait list in runs, in ascending order from the id that is expected on and near to it. -/
structure AckReady (s : RecvStream) : Prop where
  runs : ∃ runs, s.wait = flat runs
  nodup : (s.wait.map RecvNode.addr).Nodup
  sorted : s.wait.Pairwise fun a b => ahead a.id s.nextRecvExpectedId < ahead b.id s.nextRecvExpectedId
  near : ∀ n ∈ s.wait, ahead n.id s.nextRecvExpectedId < 2 ^ 20

/-- The receiver has the message: it is before the id that is expected, or in the wait list. -/
def Received (s : RecvStream) (id : u32) : Prop :=
  0 < (s.nextRecvExpectedId - id).toInt ∨ ∃ w ∈ s.wait, w.id = id

/-- A list without a wrap, as every run of calls leaves it, is ready. -/
theorem WaitOk.ackReady {s : RecvStream} (h : WaitOk s)
    (hnear : ∀ n ∈ s.wait, ahead n.id s.nextRecvExpectedId < 2 ^ 20) : AckReady s where
  runs := by
    obtain ⟨runs, hruns, -⟩ := h.runs
    exact ⟨runs, hruns⟩
  nodup := h.nodup
  sorted := by
    refine h.sorted.imp_of_mem fun {a b} ha hb hlt => ?_
    have hle := h.expected a ha
    have hle' := h.expected b hb
    rw [ahead, ahead, BitVec.toNat_sub_of_le hle, BitVec.toNat_sub_of_le hle']
    have hlt' := BitVec.lt_def.mp hlt
    have := BitVec.le_def.mp hle
    omega
  near := hnear

/-- The bytes of the loop are those of the ranges that it went through. -/
theorem ackRanges_bytes : ∀ {loops remaining : Nat} {last : u32} {wait : List RecvNode} {r : AckRanges},
    ackRanges loops remaining last wait = some r →
      r.bytes = rangeBytes last (r.visited.map fun v => (v.1.id, v.2.id)) := by
  intro loops
  induction loops with
  | zero =>
    intro remaining last wait r h
    cases wait <;> cases h <;> rfl
  | succ loops ih =>
    intro remaining last wait r h
    cases wait with
    | nil =>
      cases h
      rfl
    | cons node wait =>
      rw [ackRanges] at h
      split at h
      · cases h
        rfl
      · split at h
        · cases h
        · next eos after _ =>
          obtain ⟨r', hr', rfl⟩ := Option.map_eq_some_iff.mp h
          simp only [List.map_cons, rangeBytes]
          rw [ih hr']

/-- The runs of a list in ascending order, as ranges. -/
theorem ascending_runs {rollup : u32} (runs : List Run) : ∀ {last : u32},
    (flat runs).Pairwise (fun a b => ahead a.id rollup < ahead b.id rollup) →
    (∀ n ∈ flat runs, ahead n.id rollup < 2 ^ 20) →
    (∀ n ∈ flat runs, ahead last rollup ≤ ahead n.id rollup) →
      Ascending rollup last (runs.map fun r => (r.head.id, r.last.id)) := by
  induction runs with
  | nil => exact fun _ _ _ => trivial
  | cons r runs ih =>
    intro last hsorted hnear hlast
    rw [flat_cons] at hsorted hnear hlast
    obtain ⟨hrun, hrest, hcross⟩ := List.pairwise_append.mp hsorted
    have hlastMem : r.last ∈ r.nodes := List.getLast_mem _
    have hhead : r.head ∈ r.nodes := r.head_mem
    have hle : ahead r.head.id rollup ≤ ahead r.last.id rollup := by
      rcases List.mem_cons.mp hlastMem with heq | htail
      · rw [heq]
      · exact ((List.pairwise_cons.mp hrun).1 _ htail).le
    refine ⟨hlast _ (List.mem_append_left _ hhead), hle, hnear _ (List.mem_append_left _ hlastMem),
      ih hrest (fun n hn => hnear n (List.mem_append_right _ hn)) fun n hn => ?_⟩
    exact (hcross _ hlastMem n hn).le

theorem mem_of_chain {id : u32} : ∀ (tail : List RecvNode) (head : RecvNode),
    List.IsChain (fun a b : u32 => b = a + 1) ((head :: tail).map RecvNode.id) →
    0 ≤ (id - head.id).toInt → 0 ≤ (((head :: tail).getLast (List.cons_ne_nil _ _)).id - id).toInt →
      ∃ w ∈ head :: tail, w.id = id := by
  have hpos : ∀ x : u32, 0 ≤ x.toInt ↔ x.toNat < 2 ^ 31 := by
    intro x
    rw [BitVec.toInt_eq_toNat_cond]
    split <;> omega
  intro tail
  induction tail with
  | nil =>
    intro head _ h1 h2
    rw [hpos] at h1
    rw [List.getLast_singleton, hpos] at h2
    exact ⟨head, List.mem_cons_self, by bv_omega⟩
  | cons n tail ih =>
    intro head hchain h1 h2
    obtain ⟨hn, hchain⟩ := List.isChain_cons_cons.mp hchain
    by_cases heq : head.id = id
    · exact ⟨head, List.mem_cons_self, heq⟩
    · have h1' : 0 ≤ (id - n.id).toInt := by
        rw [hpos] at h1 ⊢
        rw [hn]
        bv_omega
      obtain ⟨w, hw, hid⟩ := ih n hchain h1' (by rwa [List.getLast_cons (List.cons_ne_nil _ _)] at h2)
      exact ⟨w, List.mem_cons_of_mem _ hw, hid⟩

/-- The ids between the ends of a run are those of its nodes. -/
theorem Run.mem_of_inRange (r : Run) {id : u32} (h : InRange (r.head.id, r.last.id) id) :
    ∃ w ∈ r.nodes, w.id = id :=
  mem_of_chain r.tail r.head r.chain h.1 h.2

/-- What a part says of its stream. -/
structure AckPart.Right (recv : Nat → RecvStream) (p : AckPart) : Prop where
  stream_lt : p.stream < numStreams
  rollup_eq : p.rollup = (recv p.stream).nextRecvExpectedId
  bytes_eq : p.ranges.bytes = rollupBytes p.stream p.rollup ++ rangeBytes p.rollup p.ids
  runs : ∃ runs j, (recv p.stream).wait = flat runs ∧
    p.ranges.visited = (runs.take j).map (fun r => (r.head, r.last)) ∧
    (j < runs.length → j = outOfOrderLoops ∨ p.ranges.remaining < 6)

theorem writeAckStream_right {stream : Nat} (hs : stream < numStreams) {recv : Nat → RecvStream}
    (h : AckReady (recv stream)) {remaining : Nat} (hspace : ¬remaining < 3) :
    ∃ s r, writeAckStream stream (recv stream) remaining = some (s, r) ∧
      AckPart.Right recv ⟨stream, (recv stream).nextRecvExpectedId, r⟩ := by
  obtain ⟨runs, hruns⟩ := h.runs
  have hnd := h.nodup
  rw [hruns] at hnd
  obtain ⟨j, bytes, left, hranges, hj, hstop, -⟩ := @ackRanges_flat runs outOfOrderLoops
    (remaining - 3) (recv stream).nextRecvExpectedId hnd
  have hbytes := ackRanges_bytes hranges
  rw [← hruns] at hranges
  have hrun : writeAckStream stream (recv stream) remaining =
      some ({ recv stream with gotReliable := !(flat (runs.drop j)).isEmpty },
        ⟨(runs.take j).map fun r => (r.head, r.last),
          rollupBytes stream (recv stream).nextRecvExpectedId ++ bytes, flat (runs.drop j), left⟩) := by
    rw [writeAckStream, if_neg hspace]
    dsimp only
    rw [hranges]
    rfl
  refine ⟨_, _, hrun, hs, rfl, ?_, runs, j, hruns, rfl, hstop⟩
  rw [AckPart.ids]
  dsimp only at hbytes ⊢
  rw [← hbytes]

theorem writeAckStreams_right (streams : List Nat) (hs : ∀ i ∈ streams, i < numStreams)
    (hnd : streams.Nodup) : ∀ {recv : Nat → RecvStream} (remaining : Nat),
      (∀ i ∈ streams, AckReady (recv i)) → ∃ recv' parts,
        writeAckStreams streams recv remaining = some (recv', parts) ∧
        (parts.map AckPart.stream).Sublist streams ∧ ∀ p ∈ parts, p.Right recv := by
  induction streams with
  | nil => exact fun _ _ => ⟨_, [], rfl, List.Sublist.refl _, List.forall_mem_nil _⟩
  | cons stream streams ih =>
    intro recv remaining h
    obtain ⟨hnot, hnd'⟩ := List.nodup_cons.mp hnd
    have ih' := fun {recv} => @ih (fun i hi => hs i (List.mem_cons_of_mem _ hi)) hnd' recv
    rw [writeAckStreams]
    by_cases hgot : (recv stream).gotReliable = true
    · rw [if_pos hgot]
      by_cases hspace : remaining < 3
      · rw [if_pos hspace]
        exact ⟨_, [], rfl, List.nil_sublist _, List.forall_mem_nil _⟩
      · rw [if_neg hspace]
        obtain ⟨s, r, hrun, hright⟩ := writeAckStream_right (hs stream List.mem_cons_self)
          (h stream List.mem_cons_self) hspace
        have hother : ∀ i ∈ streams, Function.update recv stream s i = recv i := by
          intro i hi
          have hne : i ≠ stream := fun heq => hnot (heq ▸ hi)
          rw [Function.update_of_ne hne]
        obtain ⟨recv', parts, hrest, hsub, hparts⟩ := @ih' (Function.update recv stream s) r.remaining
          fun i hi => by
            rw [hother i hi]
            exact h i (List.mem_cons_of_mem _ hi)
        rw [hrun]
        refine ⟨recv', ⟨stream, (recv stream).nextRecvExpectedId, r⟩ :: parts, ?_, hsub.cons_cons _, ?_⟩
        · simp only [hrest, Option.map_some]
        · refine List.forall_mem_cons.mpr ⟨hright, fun p hp => ?_⟩
          have hmem : p.stream ∈ streams := hsub.subset (List.mem_map_of_mem hp)
          obtain ⟨hlt, hrollup, hbytes, hruns⟩ := hparts p hp
          rw [hother _ hmem] at hrollup hruns
          exact ⟨hlt, hrollup, hbytes, hruns⟩
    · rw [if_neg hgot]
      obtain ⟨recv', parts, hrest, hsub, hparts⟩ :=
        @ih' recv remaining fun i hi => h i (List.mem_cons_of_mem _ hi)
      exact ⟨recv', parts, hrest, hsub.cons _, hparts⟩

end Writer

section RoundTrip

variable {ν μ : Type} [DecidableEq ν] [DecidableEq μ]

/-- Is the id acknowledged by the part? -/
def AckPart.Covers (p : AckPart) (id : u32) : Prop := Covered p.rollup p.ids id

instance (p : AckPart) (id : u32) : Decidable (p.Covers id) :=
  inferInstanceAs (Decidable (Covered _ _ _))

theorem AckPart.Right.ascending {recv : Nat → RecvStream} {p : AckPart} (h : p.Right recv)
    (hready : AckReady (recv p.stream)) : Ascending p.rollup p.rollup p.ids := by
  obtain ⟨runs, j, hwait, hvisited, -⟩ := h.runs
  have hsplit : flat runs = flat (runs.take j) ++ flat (runs.drop j) := by
    rw [← flat_append, List.take_append_drop]
  have hsub : (flat (runs.take j)).Sublist (recv p.stream).wait := by
    rw [hwait, hsplit]
    exact List.sublist_append_left _ _
  have hids : p.ids = (runs.take j).map fun r => (r.head.id, r.last.id) := by
    rw [AckPart.ids, hvisited, List.map_map]
    rfl
  rw [hids, h.rollup_eq]
  refine ascending_runs (runs.take j) (hready.sorted.sublist hsub)
    (fun n hn => hready.near n (hsub.subset hn)) fun n _ => ?_
  rw [ahead_self]
  exact Nat.zero_le _

/-- Only what was received is acknowledged. -/
theorem AckPart.Right.received {recv : Nat → RecvStream} {p : AckPart} (h : p.Right recv) {id : u32}
    (hcovers : p.Covers id) : Received (recv p.stream) id := by
  rcases hcovers with hroll | ⟨range, hrange, hin⟩
  · rw [h.rollup_eq] at hroll
    exact .inl hroll
  · obtain ⟨runs, j, hwait, hvisited, -⟩ := h.runs
    rw [AckPart.ids, hvisited, List.map_map] at hrange
    obtain ⟨r, hr, rfl⟩ := List.mem_map.mp hrange
    obtain ⟨w, hw, hid⟩ := r.mem_of_inRange hin
    refine .inr ⟨w, ?_, hid⟩
    rw [hwait]
    exact List.mem_flatMap.mpr ⟨r, List.mem_of_mem_take hr, hw⟩

/-- What the parts leave of the sent list of a stream. -/
def leftBy (parts : List AckPart) (id : ν → u32) (stream : Nat) (list : List ν) : List ν :=
  list.filter fun n => ¬∃ p ∈ parts, p.stream = stream ∧ p.Covers (id n)

omit [DecidableEq ν] in
theorem leftBy_cons_of_ne {p : AckPart} {parts : List AckPart} {id : ν → u32} {stream : Nat}
    (hne : p.stream ≠ stream) (list : List ν) :
    leftBy (p :: parts) id stream list = leftBy parts id stream list := by
  refine List.filter_congr fun n _ => decide_eq_decide.mpr (not_congr ?_)
  rw [List.exists_mem_cons_iff]
  exact or_iff_right fun h => hne h.1

omit [DecidableEq ν] in
theorem leftBy_of_not_mem {parts : List AckPart} {id : ν → u32} {stream : Nat}
    (hnot : stream ∉ parts.map AckPart.stream) (list : List ν) :
    leftBy parts id stream list = list := by
  refine List.filter_eq_self.mpr fun n _ => decide_eq_true ?_
  rintro ⟨p, hp, rfl, -⟩
  exact hnot (List.mem_map_of_mem hp)

/-- The parts of a message, one by one. -/
theorem AckInv.parts {msg : List u8} {sent : Nat → List ν} {fuel : Nat}
    (hfuel : ∀ i < numStreams, (sent i).length < fuel) {recv : Nat → RecvStream}
    (hready : ∀ i < numStreams, AckReady (recv i)) (parts : List AckPart) :
    ∀ {lists : Nat → List ν} {a : AckState ν μ}, AckInv msg sent a lists →
      (∀ p ∈ parts, p.Right recv) → (parts.map AckPart.stream).Nodup →
      (∀ p ∈ parts, SentNear p.rollup a.lists.id (lists p.stream)) →
      msg.drop a.pos = ackBytes parts → ∃ a' lists', Reads msg fuel a a' ∧ msg.drop a'.pos = [] ∧
        AckInv msg sent a' lists' ∧ ∀ i < numStreams,
          lists' i = leftBy parts a.lists.id i (lists i) ∧
          a'.lists.sendNextRemoteExpected i = if i ∈ parts.map AckPart.stream ∧ lists i ≠ [] then
            (recv i).nextRecvExpectedId else a.lists.sendNextRemoteExpected i := by
  induction parts with
  | nil =>
    intro lists a h _ _ _ hdrop
    refine ⟨a, lists, Reads.refl msg fuel a, hdrop, h, fun i _ => ⟨?_, ?_⟩⟩
    · rw [leftBy_of_not_mem List.not_mem_nil]
    · rw [if_neg fun hin => List.not_mem_nil hin.1]
  | cons p parts ih =>
    intro lists a h hright hnd hnear hdrop
    obtain ⟨hp, hparts⟩ := List.forall_mem_cons.mp hright
    obtain ⟨hnot, hnd'⟩ := List.nodup_cons.mp hnd
    obtain ⟨hnearp, hnears⟩ := List.forall_mem_cons.mp hnear
    rw [ackBytes, List.flatMap_cons, hp.bytes_eq, List.append_assoc] at hdrop
    obtain ⟨a₁, hreads, hrest, hid, hexpected, hinv⟩ := h.part hfuel hp.stream_lt hdrop
      (hp.ascending (hready _ hp.stream_lt)) hnearp
    have hother : ∀ i, i ≠ p.stream → ∀ l, Function.update lists p.stream l i = lists i :=
      fun i hne l => Function.update_of_ne hne _ _
    obtain ⟨a₂, lists', hreads', hrest', hinv', hres⟩ := ih hinv hparts hnd' (fun q hq => by
      rw [hid, hother _ fun heq => hnot (heq ▸ List.mem_map_of_mem hq)]
      exact hnears q hq) hrest
    refine ⟨a₂, lists', hreads.trans hreads', hrest', hinv', fun i hi => ?_⟩
    obtain ⟨hlist, hexp⟩ := hres i hi
    rw [hid] at hlist
    rw [hexpected] at hexp
    by_cases heq : p.stream = i
    · subst heq
      rw [Function.update_self, leftBy_of_not_mem hnot] at hlist
      refine ⟨?_, ?_⟩
      · rw [hlist]
        refine List.filter_congr fun n _ => decide_eq_decide.mpr (not_congr ?_)
        rw [List.exists_mem_cons_iff]
        refine ⟨fun hc => .inl ⟨rfl, hc⟩, fun hc => hc.elim And.right ?_⟩
        rintro ⟨q, hq, hqs, -⟩
        exact absurd (hqs ▸ List.mem_map_of_mem hq) hnot
      · rw [hexp, if_neg fun hin => hnot hin.1, hp.rollup_eq, List.map_cons]
        by_cases hempty : lists p.stream = []
        · rw [if_pos hempty, if_neg fun hin => hin.2 hempty]
        · rw [if_neg hempty, Function.update_self, if_pos ⟨List.mem_cons_self, hempty⟩]
    · rw [hother i (Ne.symm heq)] at hlist hexp
      refine ⟨hlist.trans (leftBy_cons_of_ne heq _).symm, hexp.trans ?_⟩
      have hmem : i ∈ (p :: parts).map AckPart.stream ↔ i ∈ parts.map AckPart.stream := by
        rw [List.map_cons, List.mem_cons]
        exact or_iff_right (Ne.symm heq)
      have hsame : (if lists p.stream = [] then a.lists.sendNextRemoteExpected
          else Function.update a.lists.sendNextRemoteExpected p.stream p.rollup) i =
            a.lists.sendNextRemoteExpected i := by
        split
        · rfl
        · exact Function.update_of_ne (Ne.symm heq) _ _
      rw [hsame]
      simp only [hmem]

/-- **The acknowledgement** of any receive state, whatever part of it has room: `OnACK` removes the
nodes that are before the rollup of their stream or in one of its ranges, and no others. It notes the
rollup where the sent list has a node. -/
theorem ack_round_trip {s : SentLists ν μ} {lists : Nat → List ν} (hwf : WellFormed s lists)
    {recv : Nat → RecvStream} (hready : ∀ i < numStreams, AckReady (recv i))
    (hnear : ∀ i < numStreams, SentNear (recv i).nextRecvExpectedId s.id (lists i))
    (maxPayloadBytes : Nat) :
    ∃ recv' parts, writeAck maxPayloadBytes recv = some (recv', parts) ∧
      (∀ p ∈ parts, p.Right recv) ∧
      ∀ fuel, (ackBytes parts).length < fuel → (∀ i < numStreams, (lists i).length < fuel) →
        ∃ s' released lists', onAck fuel (ackBytes parts) s = some (s', released) ∧
          WellFormed s' lists' ∧ ∀ i < numStreams,
            lists' i = leftBy parts s.id i (lists i) ∧
            s'.sendNextRemoteExpected i = (if i ∈ parts.map AckPart.stream ∧ lists i ≠ [] then
              (recv i).nextRecvExpectedId else s.sendNextRemoteExpected i) ∧
            ∀ n ∈ lists i, n ∉ lists' i → Received (recv i) (s.id n) := by
  obtain ⟨recv', parts, hwrite, hsub, hright⟩ := writeAckStreams_right (List.range numStreams)
    (fun i hi => List.mem_range.mp hi) List.nodup_range (subU32 maxPayloadBytes maxMessageHeaderBytes)
    fun i hi => hready i (List.mem_range.mp hi)
  refine ⟨recv', parts, hwrite, hright, fun fuel hmsg hfuel => ?_⟩
  have hinit : AckInv (ackBytes parts) lists
      { lists := s, pos := 0, dataBytes := (ackBytes parts).length, stream := numStreams
        lastAckId := 0, node := none, released := [] } lists :=
    ⟨hwf, fun _ _ => List.Sublist.refl _, fun n => by simp [releasedNodes], Nat.zero_add _, nofun⟩
  obtain ⟨a, lists', ⟨c, hc, hreads⟩, hrest, hinv, hres⟩ := hinit.parts hfuel hready parts hright
    (List.nodup_range.sublist hsub) (fun p hp => by
      rw [(hright p hp).rollup_eq]
      exact hnear _ (hright p hp).stream_lt) rfl
  have hdone : a.dataBytes = 0 := by
    have hcur := hinv.cursor
    have := List.drop_eq_nil_iff.mp hrest
    omega
  -- the fields take what fuel they need
  obtain ⟨n, rfl⟩ : ∃ n, fuel = n + 1 + c := ⟨fuel - c - 1, by dsimp only at hc; omega⟩
  obtain ⟨_, hnack⟩ := hinv.wellFormed.retransmitNegative (hinv.length_lt hfuel) a.stream a.lastAckId
  refine ⟨a.lists, a.released, lists', ?_, hinv.wellFormed, fun i hi => ?_⟩
  · have hloop : ackLoop (ackBytes parts) (n + 1 + c) (n + 1) a = some a := by
      rw [ackLoop, if_pos hdone]
    simp only [onAck, hreads, hloop, hnack, Option.bind_eq_bind, Option.bind_some]
    rfl
  · obtain ⟨hlist, hexpected⟩ := hres i hi
    refine ⟨hlist, hexpected, fun n hn hgone => ?_⟩
    rw [hlist, leftBy, List.mem_filter, not_and] at hgone
    have hcovered := hgone hn
    rw [decide_eq_true_eq, not_not] at hcovered
    obtain ⟨p, hp, rfl, hcovers⟩ := hcovered
    exact (hright p hp).received hcovers

/-- The first stream expects 11 and has 12; the others have got nothing. -/
def expectsEleven : Nat → RecvStream := fun i =>
  if i = 0 then
    { initialStream 11 with
      wait := [⟨0, some 0, 12, .sopData, []⟩], size := 1, gotReliable := true, nextAddr := 1 }
  else initialStream 0

theorem expectsEleven_ready : ∀ i < numStreams, AckReady (expectsEleven i) := by
  intro i _
  by_cases h0 : i = 0
  · subst h0
    refine ⟨⟨[⟨⟨0, some 0, 12, .sopData, []⟩, [], List.isChain_singleton _, rfl⟩], rfl⟩,
      List.nodup_singleton _, List.pairwise_singleton _ _, ?_⟩
    intro n hn
    rw [List.mem_singleton.mp hn]
    decide
  · rw [expectsEleven, if_neg h0]
    exact ⟨⟨[], rfl⟩, List.nodup_nil, List.Pairwise.nil, List.forall_mem_nil _⟩

theorem threeNodes_near : ∀ i < numStreams,
    SentNear (expectsEleven i).nextRecvExpectedId threeNodes.id (threeLists i) := by
  intro i _
  by_cases h0 : i = 0
  · subst h0
    exact ⟨by decide, by decide⟩
  · rw [threeLists, if_neg h0]
    exact ⟨List.forall_mem_nil _, List.Pairwise.nil⟩

/-- The ids 10 and 12 are acknowledged; 11 stays. -/
theorem ack_round_trip_threeNodes :
    (∃ recv' parts, writeAck 1400 expectsEleven = some (recv', parts) ∧
      (∀ p ∈ parts, p.Right expectsEleven) ∧
      ∀ fuel, (ackBytes parts).length < fuel → (∀ i < numStreams, (threeLists i).length < fuel) →
        ∃ s' released lists', onAck fuel (ackBytes parts) threeNodes = some (s', released) ∧
          WellFormed s' lists' ∧ ∀ i < numStreams,
            lists' i = leftBy parts threeNodes.id i (threeLists i) ∧
            s'.sendNextRemoteExpected i = (if i ∈ parts.map AckPart.stream ∧ threeLists i ≠ [] then
              (expectsEleven i).nextRecvExpectedId else threeNodes.sendNextRemoteExpected i) ∧
            ∀ n ∈ threeLists i, n ∉ lists' i → Received (expectsEleven i) (threeNodes.id n)) ∧
    (writeAck 1400 expectsEleven).map (fun w => ackBytes w.2) = some [0x59, 0, 0, 0x04] ∧
    (onAck 8 [0x59, 0, 0, 0x04] threeNodes).map (·.2) = some [.node 1, .node 3] :=
  ⟨ack_round_trip threeNodes_wellFormed expectsEleven_ready threeNodes_near 1400, by decide, by decide⟩

end RoundTrip

end Libcat.Sphynx
