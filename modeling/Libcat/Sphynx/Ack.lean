import Libcat.Lib.Intrusive
import Libcat.Sphynx.Common

/-!
# Acknowledgments

`OnACK` on the sent lists of the streams. A field of the message is a rollup of one stream, which
removes the nodes before an id, or a range of ids after the last one, which removes the nodes in it.
Reads of the message are lookups, so that one past its end has no result, and a loop that runs out
of fuel has none. Flow control and the retransmissions themselves are left out.

`WellFormed` is the invariant of the lists and `AckInv` the one of the loop over the fields.
-/

namespace Libcat.Sphynx

open Intrusive

/-- The nodes `ν` of the sent lists, with the messages `μ` they are fragments of. -/
structure SentLists (ν μ : Type) where
  next : ν → Option ν
  prev : ν → Option ν
  id : ν → u32
  head : Nat → Option ν
  tail : Nat → Option ν
  sendNextRemoteExpected : Nat → u32
  fullData : ν → Option μ
  fragCount : μ → u32
  allSent : μ → Bool

/-- What is given back to the allocator. -/
inductive Release (ν μ : Type) where
  | node (n : ν)
  | message (m : μ)
deriving DecidableEq

def Release.node? {ν μ : Type} : Release ν μ → Option ν
  | node n => some n
  | message _ => none

/-- The nodes among what is given back. -/
def releasedNodes {ν μ : Type} (l : List (Release ν μ)) : List ν := l.filterMap Release.node?

/-- The locals of `OnACK`. `stream` is `numStreams` before the first rollup. -/
structure AckState (ν μ : Type) where
  lists : SentLists ν μ
  pos : Nat
  dataBytes : Nat
  stream : Nat
  lastAckId : u32
  node : Option ν
  released : List (Release ν μ)

section Model

variable {ν μ : Type} [DecidableEq ν] [DecidableEq μ]

namespace SentLists

/-- `SentList::RemoveBefore`. -/
def removeBefore (stream : Nat) (node : Option ν) (s : SentLists ν μ) : SentLists ν μ :=
  { s with
    prev := write s.prev node none
    tail := if node = none then Function.update s.tail stream none else s.tail
    head := Function.update s.head stream node }

/-- `SentList::RemoveBetween`. -/
def removeBetween (stream : Nat) (prev next : Option ν) (s : SentLists ν μ) : SentLists ν μ :=
  { s with
    next := write s.next prev next
    prev := write s.prev next prev
    head := if prev = none then Function.update s.head stream next else s.head
    tail := if next = none then Function.update s.tail stream prev else s.tail }

/-- `Transport::FreeSentNode`. -/
def freeSentNode (n : ν) (s : SentLists ν μ) : SentLists ν μ × List (Release ν μ) :=
  match s.fullData n with
  | none => (s, [.node n])
  | some m =>
    let count := s.fragCount m - 1
    ({ s with fragCount := Function.update s.fragCount m count },
      if count = 0 ∧ s.allSent m then [.message m, .node n] else [.node n])

/-- The nodes are freed as long as their ids meet the condition. -/
def freeWhile (cond : u32 → Bool) :
    Nat → Option ν → SentLists ν μ → Option (Option ν × SentLists ν μ × List (Release ν μ))
  | 0, _, _ => none
  | _ + 1, none, s => some (none, s, [])
  | fuel + 1, some n, s =>
    if cond (s.id n) then
      let f := s.freeSentNode n
      (freeWhile cond fuel (s.next n) f.1).map fun r => (r.1, r.2.1, f.2 ++ r.2.2)
    else some (some n, s, [])

/-- Skip through the sent list under the range start. -/
def skipUnder (s : SentLists ν μ) (startAckId : u32) : Nat → Option ν → Option (Option ν)
  | 0, _ => none
  | _ + 1, none => some none
  | fuel + 1, some n =>
    if (s.id n - startAckId).toInt < 0 then s.skipUnder startAckId fuel (s.next n)
    else some (some n)

/-- The nodes that `RetransmitNegative` looks at. -/
def negativeWalk (s : SentLists ν μ) (lastAckId : u32) : Nat → Option ν → Option (List ν)
  | 0, _ => none
  | _ + 1, none => some []
  | fuel + 1, some n =>
    if 0 < (lastAckId - s.id n).toInt then
      (s.negativeWalk lastAckId fuel (s.next n)).map (n :: ·)
    else some []

/-- `Transport::RetransmitNegative`, for the stream that was read last. -/
def retransmitNegative (fuel : Nat) (s : SentLists ν μ) (stream : Nat) (lastAckId : u32) :
    Option (List ν) :=
  if stream < numStreams then s.negativeWalk lastAckId fuel (s.head stream) else some []

end SentLists

/-- The bytes after the first of a number: `none` for a read past the end of the message, `some none`
when the message is truncated. -/
def readTail (msg : List u8) (first : u8) (base : u32) (shift shift' pos dataBytes : Nat) :
    Option (Option (u32 × Nat × Nat)) :=
  if hasBit first 0x80 then
    if 1 ≤ dataBytes then do
      let idb ← msg[pos]?
      let base := base + (idb &&& 0x7f).setWidth 32 <<< shift
      if hasBit idb 0x80 then
        if 1 ≤ dataBytes - 1 then do
          let idc ← msg[pos + 1]?
          return some (base + idc.setWidth 32 <<< shift', pos + 2, dataBytes - 2)
        else return none
      else return some (base, pos + 1, dataBytes - 1)
    else return none
  else return some (base, pos, dataBytes)

/-- The start and the end of a range. -/
def readRange (msg : List u8) (ida : u8) (lastAckId : u32) (pos dataBytes : Nat) :
    Option (Option (u32 × u32 × Nat × Nat)) := do
  let base := lastAckId + ((ida >>> 2) &&& 31).setWidth 32
  match ← readTail msg ida base 5 12 pos dataBytes with
  | none => return none
  | some (startAckId, pos, dataBytes) =>
    if hasBit ida 2 then
      if 1 ≤ dataBytes then do
        let ida1 ← msg[pos]?
        let base := startAckId + (ida1 &&& 0x7f).setWidth 32
        match ← readTail msg ida1 base 7 14 (pos + 1) (dataBytes - 1) with
        | none => return none
        | some (endAckId, pos, dataBytes) => return some (startAckId, endAckId, pos, dataBytes)
      else return none
    else return some (startAckId, startAckId, pos, dataBytes)

/-- A rollup field past its first byte, and whether the message goes on. -/
def ackRollup (msg : List u8) (fuel : Nat) (ida : u8) (a : AckState ν μ) :
    Option (AckState ν μ × Bool) :=
  if 2 ≤ a.dataBytes then do
    let idb ← msg[a.pos]?
    let idc ← msg[a.pos + 1]?
    let _ ← a.lists.retransmitNegative fuel a.stream a.lastAckId
    let stream := ((ida >>> 1) &&& 3).toNat
    let low : u32 := idc.setWidth 32 <<< 13 ||| idb.setWidth 32 <<< 5 ||| (ida >>> 3).setWidth 32
    let a := { a with
      pos := a.pos + 2, dataBytes := a.dataBytes - 2, stream := stream
      node := a.lists.head stream }
    match a.node with
    | none => return (a, true)
    | some n =>
      let ackId := reconstructCounter 21 (a.lists.id n) low
      let lists := { a.lists with
        sendNextRemoteExpected := Function.update a.lists.sendNextRemoteExpected stream ackId }
      let a := { a with lists := lists, lastAckId := ackId }
      if 0 < (ackId - lists.id n).toInt then do
        let (node, lists, l) ←
          lists.freeWhile (fun id => 0 < (ackId - id).toInt) fuel (some n)
        return ({ a with
          lists := lists.removeBefore stream node, node := node, released := a.released ++ l }, true)
      else return (a, true)
  else return (a, false)

/-- A range field past its first byte. -/
def ackRange (msg : List u8) (fuel : Nat) (ida : u8) (a : AckState ν μ) :
    Option (AckState ν μ × Bool) := do
  match ← readRange msg ida a.lastAckId a.pos a.dataBytes with
  | none => return (a, false)
  | some (startAckId, endAckId, pos, dataBytes) =>
    let a := { a with pos := pos, dataBytes := dataBytes }
    match a.node with
    | none => return (a, true)
    | some n => do
      let a := { a with lastAckId := endAckId }
      match ← a.lists.skipUnder startAckId fuel (some n) with
      | none => return ({ a with node := none }, true)
      | some n =>
        if 0 ≤ (endAckId - a.lists.id n).toInt then do
          let prev := a.lists.prev n
          let (node, lists, l) ←
            a.lists.freeWhile (fun id => 0 ≤ (endAckId - id).toInt) fuel (some n)
          return ({ a with
            lists := lists.removeBetween a.stream prev node, node := node
            released := a.released ++ l }, true)
        else return ({ a with node := some n }, true)

/-- One field. -/
def ackField (msg : List u8) (fuel : Nat) (a : AckState ν μ) : Option (AckState ν μ × Bool) := do
  let ida ← msg[a.pos]?
  let a := { a with pos := a.pos + 1, dataBytes := a.dataBytes - 1 }
  if hasBit ida 1 then ackRollup msg fuel ida a else ackRange msg fuel ida a

/-- The loop over the fields. -/
def ackLoop (msg : List u8) (fuel : Nat) : Nat → AckState ν μ → Option (AckState ν μ)
  | 0, _ => none
  | n + 1, a =>
    if a.dataBytes = 0 then some a
    else
      match ackField msg fuel a with
      | none => none
      | some (a, false) => some a
      | some (a, true) => ackLoop msg fuel n a

/-- `Transport::OnACK`: the lists after it, and what was freed. -/
def onAck (fuel : Nat) (msg : List u8) (s : SentLists ν μ) :
    Option (SentLists ν μ × List (Release ν μ)) := do
  let a ← ackLoop msg fuel fuel
    { lists := s, pos := 0, dataBytes := msg.length, stream := numStreams, lastAckId := 0
      node := none, released := [] }
  let _ ← a.lists.retransmitNegative fuel a.stream a.lastAckId
  return (a.lists, a.released)

end Model

/-! ## The lists -/

/-- The sent lists are the lists of nodes, linked both ways, and no node is on two of them. -/
structure WellFormed {ν μ : Type} (s : SentLists ν μ) (lists : Nat → List ν) : Prop where
  linked : ∀ i < numStreams, Linked s.next s.prev (s.head i) (lists i)
  tail : ∀ i < numStreams, s.tail i = (lists i).getLast?
  nodup : ∀ i < numStreams, (lists i).Nodup
  disjoint : ∀ i < numStreams, ∀ j < numStreams, i ≠ j → (lists i).Disjoint (lists j)

section Lists

variable {ν μ : Type} [DecidableEq ν] [DecidableEq μ] {s : SentLists ν μ} {lists : Nat → List ν}

omit [DecidableEq μ] in
theorem SentLists.removeBefore_eq (stream : Nat) (node : Option ν) (s : SentLists ν μ) :
    s.removeBefore stream node = s.removeBetween stream none node := by
  simp [removeBefore, removeBetween, write]

omit [DecidableEq ν] [DecidableEq μ] in
theorem WellFormed.withFragCount (h : WellFormed s lists) (fragCount : μ → u32) :
    WellFormed { s with fragCount := fragCount } lists :=
  ⟨h.linked, h.tail, h.nodup, h.disjoint⟩

omit [DecidableEq μ] in
/-- Nodes in the middle of one list are removed. -/
theorem WellFormed.cut (h : WellFormed s lists) {stream : Nat} (hs : stream < numStreams)
    {l c m : List ν} (hl : lists stream = l ++ (c ++ m)) :
    WellFormed (s.removeBetween stream l.getLast? m.head?)
      (Function.update lists stream (l ++ m)) := by
  have hlinked := h.linked stream hs
  have hnd := h.nodup stream hs
  rw [hl] at hlinked hnd
  have hcut := hlinked.cut hnd
  have hsub : (l ++ m).Sublist (lists stream) := by
    rw [hl]
    exact (List.Sublist.refl l).append (List.sublist_append_right c m)
  have hmem : ∀ {b}, b ∈ l ++ m → b ∈ lists stream := fun hb => hsub.subset hb
  constructor
  case linked =>
    intro i hi
    by_cases his : i = stream
    · subst his
      rw [Function.update_self]
      have hhead : (s.removeBetween i l.getLast? m.head?).head i =
          if l = [] then m.head? else s.head i := by
        simp only [SentLists.removeBetween, List.getLast?_eq_none_iff]
        split
        · rw [Function.update_self]
        · rfl
      rw [hhead]
      exact hcut
    · rw [Function.update_of_ne his]
      have hhead : (s.removeBetween stream l.getLast? m.head?).head i = s.head i := by
        simp only [SentLists.removeBetween]
        split
        · rw [Function.update_of_ne his]
        · rfl
      rw [hhead]
      -- the nodes that are written are on the other list
      have hd := h.disjoint i hi stream hs his
      refine (h.linked i hi).congr (fun a ha => write_of_ne fun he => ?_)
        (fun a ha => write_of_ne fun he => ?_)
      · exact hd ha (hmem (List.mem_append_left _ (List.mem_of_mem_getLast? he)))
      · exact hd ha (hmem (List.mem_append_right _ (List.mem_of_mem_head? he)))
  case tail =>
    intro i hi
    have htail := h.tail i hi
    by_cases his : i = stream
    · subst his
      rw [Function.update_self]
      rw [hl] at htail
      simp only [SentLists.removeBetween, List.head?_eq_none_iff]
      rcases List.eq_nil_or_concat m with rfl | ⟨m, b, rfl⟩
      · rw [if_pos rfl, Function.update_self, List.append_nil]
      · rw [List.concat_eq_append] at htail ⊢
        rw [if_neg (by simp), htail, ← List.append_assoc, ← List.append_assoc,
          List.getLast?_concat, ← List.append_assoc, List.getLast?_concat]
    · rw [Function.update_of_ne his]
      simp only [SentLists.removeBetween]
      split
      · rw [Function.update_of_ne his]
        exact htail
      · exact htail
  case nodup =>
    intro i hi
    by_cases his : i = stream
    · subst his
      rw [Function.update_self]
      exact (h.nodup i hi).sublist hsub
    · rw [Function.update_of_ne his]
      exact h.nodup i hi
  case disjoint =>
    intro i hi j hj hij a ha hb
    by_cases his : i = stream <;> by_cases hjs : j = stream
    · exact hij (his.trans hjs.symm)
    · subst his
      rw [Function.update_self] at ha
      rw [Function.update_of_ne hjs] at hb
      exact h.disjoint i hi j hj hij (hmem ha) hb
    · subst hjs
      rw [Function.update_of_ne his] at ha
      rw [Function.update_self] at hb
      exact h.disjoint i hi j hj hij ha (hmem hb)
    · rw [Function.update_of_ne his] at ha
      rw [Function.update_of_ne hjs] at hb
      exact h.disjoint i hi j hj hij ha hb

/-! ## Loops over the nodes -/

omit [DecidableEq ν] in
theorem SentLists.freeSentNode_spec (n : ν) (s : SentLists ν μ) :
    ∃ fragCount l, s.freeSentNode n = ({ s with fragCount := fragCount }, l) ∧
      releasedNodes l = [n] := by
  unfold freeSentNode
  split
  · exact ⟨s.fragCount, [.node n], rfl, rfl⟩
  · refine ⟨_, _, rfl, ?_⟩
    split <;> rfl

omit [DecidableEq ν] in
/-- A first part of the nodes is freed, in order, and the links stay. -/
theorem SentLists.freeWhile_spec (cond : u32 → Bool) : ∀ {list : List ν} {fuel : Nat}
    {s : SentLists ν μ} {p : Option ν}, list.length < fuel → Seg s.next p list none →
      ∃ c m fragCount l, list = c ++ m ∧ releasedNodes l = c ∧
        freeWhile cond fuel p s = some (m.head?, { s with fragCount := fragCount }, l) := by
  intro list
  induction list with
  | nil =>
    rintro fuel s p hfuel rfl
    obtain ⟨fuel, rfl⟩ : ∃ f, fuel = f + 1 := ⟨fuel - 1, by omega⟩
    exact ⟨[], [], s.fragCount, [], rfl, rfl, rfl⟩
  | cons n list ih =>
    rintro fuel s p hfuel ⟨rfl, hseg⟩
    obtain ⟨fuel, rfl⟩ : ∃ f, fuel = f + 1 := ⟨fuel - 1, by omega⟩
    rw [freeWhile]
    by_cases hcond : cond (s.id n) = true
    · obtain ⟨fragCount, l, hfree, hl⟩ := freeSentNode_spec n s
      obtain ⟨c, m, fragCount', l', rfl, hl', hrun⟩ :=
        ih (s := { s with fragCount := fragCount }) (Nat.lt_of_succ_lt_succ hfuel) hseg
      refine ⟨n :: c, m, fragCount', l ++ l', rfl, ?_, ?_⟩
      · rw [releasedNodes, List.filterMap_append]
        rw [releasedNodes] at hl hl'
        rw [hl, hl']
        rfl
      · rw [if_pos hcond]
        dsimp only
        rw [hfree, hrun]
        rfl
    · rw [if_neg hcond]
      exact ⟨[], n :: list, s.fragCount, [], rfl, rfl, rfl⟩

omit [DecidableEq ν] [DecidableEq μ] in
theorem SentLists.skipUnder_spec (startAckId : u32) : ∀ {list : List ν} {fuel : Nat} {p : Option ν},
    list.length < fuel → Seg s.next p list none →
      ∃ c m, list = c ++ m ∧ s.skipUnder startAckId fuel p = some m.head? := by
  intro list
  induction list with
  | nil =>
    rintro fuel p hfuel rfl
    obtain ⟨fuel, rfl⟩ : ∃ f, fuel = f + 1 := ⟨fuel - 1, by omega⟩
    exact ⟨[], [], rfl, rfl⟩
  | cons n list ih =>
    rintro fuel p hfuel ⟨rfl, hseg⟩
    obtain ⟨fuel, rfl⟩ : ∃ f, fuel = f + 1 := ⟨fuel - 1, by omega⟩
    rw [skipUnder]
    split
    · obtain ⟨c, m, rfl, hrun⟩ := ih (Nat.lt_of_succ_lt_succ hfuel) hseg
      exact ⟨n :: c, m, rfl, hrun⟩
    · exact ⟨[], n :: list, rfl, rfl⟩

omit [DecidableEq ν] [DecidableEq μ] in
theorem SentLists.negativeWalk_isSome {lastAckId : u32} : ∀ {list : List ν} {fuel : Nat}
    {p : Option ν}, list.length < fuel → Seg s.next p list none →
      ∃ l, s.negativeWalk lastAckId fuel p = some l := by
  intro list
  induction list with
  | nil =>
    rintro fuel p hfuel rfl
    obtain ⟨fuel, rfl⟩ : ∃ f, fuel = f + 1 := ⟨fuel - 1, by omega⟩
    exact ⟨[], rfl⟩
  | cons n list ih =>
    rintro fuel p hfuel ⟨rfl, hseg⟩
    obtain ⟨fuel, rfl⟩ : ∃ f, fuel = f + 1 := ⟨fuel - 1, by omega⟩
    rw [negativeWalk]
    split
    · obtain ⟨l, hrun⟩ := ih (Nat.lt_of_succ_lt_succ hfuel) hseg
      exact ⟨n :: l, by rw [hrun]; rfl⟩
    · exact ⟨[], rfl⟩

omit [DecidableEq ν] [DecidableEq μ] in
theorem WellFormed.retransmitNegative (h : WellFormed s lists) {fuel : Nat}
    (hfuel : ∀ i < numStreams, (lists i).length < fuel) (stream : Nat) (lastAckId : u32) :
    ∃ l, s.retransmitNegative fuel stream lastAckId = some l := by
  unfold SentLists.retransmitNegative
  split
  · next hs => exact SentLists.negativeWalk_isSome (hfuel stream hs) (h.linked stream hs).next
  · exact ⟨[], rfl⟩

end Lists

/-! ## Reads -/

section Reads

variable {msg : List u8} {pos dataBytes : Nat}

theorem getElem?_of_cursor (h : pos + dataBytes = msg.length) (hb : 1 ≤ dataBytes) :
    ∃ b, msg[pos]? = some b :=
  ⟨_, List.getElem?_eq_getElem (by omega)⟩

/-- Numbers are read inside of the message. -/
theorem readTail_spec (first : u8) (base : u32) (shift shift' : Nat)
    (h : pos + dataBytes = msg.length) :
    ∃ r, readTail msg first base shift shift' pos dataBytes = some r ∧
      ∀ v pos' dataBytes', r = some (v, pos', dataBytes') →
        pos' + dataBytes' = msg.length ∧ dataBytes' ≤ dataBytes := by
  unfold readTail
  split
  · split
    · next hb =>
      obtain ⟨idb, hidb⟩ := getElem?_of_cursor h hb
      simp only [hidb, Option.bind_eq_bind, Option.bind_some]
      split
      · split
        · next hb' =>
          have hcur : pos + 1 + (dataBytes - 1) = msg.length := by omega
          obtain ⟨idc, hidc⟩ := getElem?_of_cursor hcur hb'
          simp only [hidc, Option.bind_some]
          refine ⟨_, rfl, ?_⟩
          rintro v pos' dataBytes' ⟨⟩
          omega
        · exact ⟨none, rfl, nofun⟩
      · refine ⟨_, rfl, ?_⟩
        rintro v pos' dataBytes' ⟨⟩
        omega
    · exact ⟨none, rfl, nofun⟩
  · refine ⟨_, rfl, ?_⟩
    rintro v pos' dataBytes' ⟨⟩
    omega

theorem readRange_spec (ida : u8) (lastAckId : u32) (h : pos + dataBytes = msg.length) :
    ∃ r, readRange msg ida lastAckId pos dataBytes = some r ∧
      ∀ v w pos' dataBytes', r = some (v, w, pos', dataBytes') →
        pos' + dataBytes' = msg.length ∧ dataBytes' ≤ dataBytes := by
  unfold readRange
  obtain ⟨r, hr, hcur⟩ := readTail_spec ida
    (lastAckId + ((ida >>> 2) &&& 31).setWidth 32) 5 12 h
  simp only [hr, Option.bind_eq_bind, Option.bind_some]
  cases r with
  | none => exact ⟨none, rfl, nofun⟩
  | some r =>
    obtain ⟨startAckId, pos₁, dataBytes₁⟩ := r
    obtain ⟨hcur, hle⟩ := hcur _ _ _ rfl
    dsimp only
    split
    · split
      · next hb =>
        obtain ⟨ida1, hida1⟩ := getElem?_of_cursor hcur hb
        simp only [hida1, Option.bind_some]
        have hcur₁ : pos₁ + 1 + (dataBytes₁ - 1) = msg.length := by omega
        obtain ⟨r, hr, hcur'⟩ :=
          readTail_spec ida1 (startAckId + (ida1 &&& 0x7f).setWidth 32) 7 14 hcur₁
        simp only [hr, Option.bind_some]
        cases r with
        | none => exact ⟨none, rfl, nofun⟩
        | some r =>
          obtain ⟨endAckId, pos₂, dataBytes₂⟩ := r
          obtain ⟨hcur', hle'⟩ := hcur' _ _ _ rfl
          refine ⟨_, rfl, ?_⟩
          rintro v w pos' dataBytes' ⟨⟩
          omega
      · exact ⟨none, rfl, nofun⟩
    · refine ⟨_, rfl, ?_⟩
      rintro v w pos' dataBytes' ⟨⟩
      omega

end Reads

/-! ## The loop over the fields -/

/-- How often a node is on the lists. -/
def total {ν : Type} [DecidableEq ν] (lists : Nat → List ν) (n : ν) : Nat :=
  ∑ i ∈ Finset.range numStreams, (lists i).count n

section Fields

variable {ν μ : Type} [DecidableEq ν] [DecidableEq μ] {msg : List u8} {sent lists : Nat → List ν}
  {a : AckState ν μ}

omit [DecidableEq μ] in
theorem total_update {stream : Nat} (hs : stream < numStreams) (list : List ν) (n : ν) :
    total (Function.update lists stream list) n + (lists stream).count n =
      total lists n + list.count n := by
  have hmem : stream ∈ Finset.range numStreams := Finset.mem_range.mpr hs
  rw [total, total, ← Finset.add_sum_erase _ _ hmem, ← Finset.add_sum_erase _ _ hmem,
    Function.update_self]
  have hrest : ∑ i ∈ (Finset.range numStreams).erase stream,
      (Function.update lists stream list i).count n =
        ∑ i ∈ (Finset.range numStreams).erase stream, (lists i).count n := by
    refine Finset.sum_congr rfl fun i hi => ?_
    rw [Function.update_of_ne (Finset.ne_of_mem_erase hi)]
  rw [hrest]
  omega

/-- The invariant of the loop. Each node that was sent is on its list or was freed, and the node at
hand is on the list of the stream. -/
structure AckInv (msg : List u8) (sent : Nat → List ν) (a : AckState ν μ)
    (lists : Nat → List ν) : Prop where
  wellFormed : WellFormed a.lists lists
  sub : ∀ i < numStreams, (lists i).Sublist (sent i)
  count : ∀ n, (releasedNodes a.released).count n + total lists n = total sent n
  cursor : a.pos + a.dataBytes = msg.length
  node : ∀ n, a.node = some n → a.stream < numStreams ∧ n ∈ lists a.stream

namespace AckInv

omit [DecidableEq μ] in
/-- Nodes in the middle of the list of the stream are freed and removed. -/
theorem cut (h : AckInv msg sent a lists) (hs : a.stream < numStreams) {l c m : List ν}
    (hl : lists a.stream = l ++ (c ++ m)) {released : List (Release ν μ)}
    (hc : releasedNodes released = c) (fragCount : μ → u32) :
    AckInv msg sent
      { a with
        lists :=
          { a.lists with fragCount := fragCount }.removeBetween a.stream l.getLast? m.head?
        node := m.head?
        released := a.released ++ released }
      (Function.update lists a.stream (l ++ m)) := by
  constructor
  case wellFormed => exact (h.wellFormed.withFragCount fragCount).cut hs hl
  case sub =>
    intro i hi
    by_cases his : i = a.stream
    · subst his
      rw [Function.update_self]
      refine List.Sublist.trans ?_ (h.sub _ hi)
      rw [hl]
      exact (List.Sublist.refl l).append (List.sublist_append_right c m)
    · rw [Function.update_of_ne his]
      exact h.sub i hi
  case count =>
    intro n
    have h1 := h.count n
    have h2 := @total_update _ _ lists _ hs (l ++ m) n
    rw [hl] at h2
    simp only [releasedNodes, List.filterMap_append, List.count_append] at h1 h2 hc ⊢
    rw [hc]
    omega
  case cursor => exact h.cursor
  case node =>
    intro n hn
    refine ⟨hs, ?_⟩
    rw [Function.update_self]
    exact List.mem_append_right _ (List.mem_of_mem_head? hn)

omit [DecidableEq μ] in
theorem length_lt (h : AckInv msg sent a lists) {fuel : Nat}
    (hfuel : ∀ i < numStreams, (sent i).length < fuel) :
    ∀ i < numStreams, (lists i).length < fuel :=
  fun i hi => Nat.lt_of_le_of_lt (h.sub i hi).length_le (hfuel i hi)

theorem rollup (h : AckInv msg sent a lists) {fuel : Nat}
    (hfuel : ∀ i < numStreams, (sent i).length < fuel) (ida : u8) :
    ∃ a' go lists', ackRollup msg fuel ida a = some (a', go) ∧ AckInv msg sent a' lists' ∧
      a'.dataBytes ≤ a.dataBytes := by
  unfold ackRollup
  split
  · next hb =>
    obtain ⟨idb, hidb⟩ := getElem?_of_cursor h.cursor (Nat.le_of_succ_le hb)
    have hcur : a.pos + 1 + (a.dataBytes - 1) = msg.length := by
      have := h.cursor
      omega
    obtain ⟨idc, hidc⟩ := getElem?_of_cursor hcur (by omega)
    obtain ⟨_, hnack⟩ :=
      h.wellFormed.retransmitNegative (h.length_lt hfuel) a.stream a.lastAckId
    simp only [hidb, hidc, hnack, Option.bind_eq_bind, Option.bind_some]
    have hs : ((ida >>> 1) &&& 3).toNat < numStreams := by
      rw [BitVec.toNat_and]
      exact Nat.lt_succ_of_le Nat.and_le_right
    generalize ((ida >>> 1) &&& 3).toNat = stream at hs
    have hhead := (h.wellFormed.linked stream hs).next.head
    split
    · next hn =>
      refine ⟨_, _, lists, rfl, ⟨h.wellFormed, h.sub, h.count, ?_, ?_⟩, Nat.sub_le _ _⟩
      · have := h.cursor
        dsimp only
        omega
      · intro n hn'
        rw [hn] at hn'
        cases hn'
    · next n hn =>
      generalize hack : reconstructCounter 21 (a.lists.id n) _ = ackId
      have h' : AckInv msg sent
          { a with
            lists :=
              { a.lists with
                sendNextRemoteExpected :=
                  Function.update a.lists.sendNextRemoteExpected stream ackId }
            pos := a.pos + 2, dataBytes := a.dataBytes - 2, stream := stream, lastAckId := ackId
            node := some n } lists := by
        refine ⟨⟨h.wellFormed.linked, h.wellFormed.tail, h.wellFormed.nodup,
          h.wellFormed.disjoint⟩, h.sub, h.count, ?_, ?_⟩
        · have := h.cursor
          dsimp only
          omega
        · rintro n' ⟨⟩
          exact ⟨hs, List.mem_of_mem_head? (hhead ▸ hn)⟩
      split
      · -- the nodes from the head on
        have hseg := (h'.wellFormed.linked stream hs).next
        obtain ⟨c, m, fragCount, l, hl, hc, hrun⟩ :=
          SentLists.freeWhile_spec _ (h'.length_lt hfuel stream hs) (hn ▸ hseg)
        rw [hrun]
        have hcut := h'.cut hs (l := []) hl hc fragCount
        rw [List.getLast?_nil, ← SentLists.removeBefore_eq] at hcut
        exact ⟨_, _, _, rfl, hcut, Nat.sub_le _ _⟩
      · exact ⟨_, _, lists, rfl, by rw [hn]; exact h', Nat.sub_le _ _⟩
  · exact ⟨_, _, lists, rfl, h, Nat.le_refl _⟩

theorem range (h : AckInv msg sent a lists) {fuel : Nat}
    (hfuel : ∀ i < numStreams, (sent i).length < fuel) (ida : u8) :
    ∃ a' go lists', ackRange msg fuel ida a = some (a', go) ∧ AckInv msg sent a' lists' ∧
      a'.dataBytes ≤ a.dataBytes := by
  unfold ackRange
  obtain ⟨r, hr, hcur⟩ := readRange_spec ida a.lastAckId h.cursor
  simp only [hr, Option.bind_eq_bind, Option.bind_some]
  cases r with
  | none => exact ⟨_, _, lists, rfl, h, Nat.le_refl _⟩
  | some r =>
    obtain ⟨startAckId, endAckId, pos, dataBytes⟩ := r
    obtain ⟨hcur, hle⟩ := hcur _ _ _ _ rfl
    dsimp only
    split
    · next hn =>
      refine ⟨_, _, lists, rfl, ⟨h.wellFormed, h.sub, h.count, hcur, ?_⟩, hle⟩
      intro n hn'
      rw [hn] at hn'
      cases hn'
    · next n hn =>
      obtain ⟨hs, hmem⟩ := h.node n hn
      have hlinked := (h.wellFormed.linked _ hs)
      have hlen := h.length_lt hfuel _ hs
      obtain ⟨l, rest, hl⟩ := List.append_of_mem hmem
      -- the nodes from the one at hand on
      have hseg : Seg a.lists.next (some n) (n :: rest) none := by
        have := hlinked.next
        rw [hl] at this
        obtain ⟨q, -, hq⟩ := Seg.append.mp this
        have hq' := hq
        rw [hq.1] at hq'
        exact hq'
      have hlen' : (n :: rest).length < fuel := by
        rw [hl, List.length_append] at hlen
        omega
      obtain ⟨skipped, m, hm, hskip⟩ :=
        SentLists.skipUnder_spec startAckId hlen' hseg
      simp only [hskip, Option.bind_some]
      rw [hm] at hl hseg hlen'
      obtain ⟨q, -, hq⟩ := Seg.append.mp hseg
      cases m with
      | nil =>
        exact ⟨_, _, lists, rfl, ⟨h.wellFormed, h.sub, h.count, hcur, nofun⟩, hle⟩
      | cons n' m =>
        obtain ⟨rfl, hq⟩ := hq
        have hmem' : n' ∈ lists a.stream := by
          rw [hl]
          simp
        have h' : AckInv msg sent
            { a with pos := pos, dataBytes := dataBytes, lastAckId := endAckId, node := some n' }
            lists := by
          refine ⟨h.wellFormed, h.sub, h.count, hcur, ?_⟩
          rintro n'' ⟨⟩
          exact ⟨hs, hmem'⟩
        simp only [List.head?_cons]
        split
        · have hlen'' : (n' :: m).length < fuel := by
            rw [List.length_append] at hlen'
            omega
          obtain ⟨c, m', fragCount, released, hcm, hc, hrun⟩ :=
            SentLists.freeWhile_spec (fun id => decide (0 ≤ (endAckId - id).toInt))
              (s := a.lists) hlen'' ⟨rfl, hq⟩
          simp only [hrun, Option.bind_some]
          have hl' : lists a.stream = (l ++ skipped) ++ (c ++ m') := by
            rw [hl, hcm, List.append_assoc]
          have hprev : a.lists.prev n' = (l ++ skipped).getLast? := by
            have := hlinked
            rw [hl, ← List.append_assoc] at this
            exact this.prev_eq
          rw [hprev]
          exact ⟨_, _, _, rfl, h'.cut hs hl' hc fragCount, hle⟩
        · exact ⟨_, _, lists, rfl, h', hle⟩

theorem field (h : AckInv msg sent a lists) {fuel : Nat}
    (hfuel : ∀ i < numStreams, (sent i).length < fuel) (hb : a.dataBytes ≠ 0) :
    ∃ a' go lists', ackField msg fuel a = some (a', go) ∧ AckInv msg sent a' lists' ∧
      a'.dataBytes < a.dataBytes := by
  unfold ackField
  obtain ⟨ida, hida⟩ := getElem?_of_cursor h.cursor (Nat.one_le_iff_ne_zero.mpr hb)
  have h' : AckInv msg sent { a with pos := a.pos + 1, dataBytes := a.dataBytes - 1 } lists := by
    refine ⟨h.wellFormed, h.sub, h.count, ?_, h.node⟩
    have := h.cursor
    dsimp only
    omega
  simp only [hida, Option.bind_eq_bind, Option.bind_some]
  split
  · obtain ⟨a', go, lists', hrun, h'', hle⟩ := h'.rollup hfuel ida
    exact ⟨a', go, lists', hrun, h'', by dsimp only at hle; omega⟩
  · obtain ⟨a', go, lists', hrun, h'', hle⟩ := h'.range hfuel ida
    exact ⟨a', go, lists', hrun, h'', by dsimp only at hle; omega⟩

/-- Each field takes a byte at least, so the loop ends. -/
theorem loop {fuel : Nat} (hfuel : ∀ i < numStreams, (sent i).length < fuel) :
    ∀ {n : Nat} {a : AckState ν μ} {lists : Nat → List ν}, AckInv msg sent a lists →
      a.dataBytes < n →
      ∃ a' lists', ackLoop msg fuel n a = some a' ∧ AckInv msg sent a' lists' := by
  intro n
  induction n with
  | zero => exact fun _ hn => absurd hn (Nat.not_lt_zero _)
  | succ n ih =>
    intro a lists h hn
    rw [ackLoop]
    split
    · exact ⟨a, lists, rfl, h⟩
    · next hb =>
      obtain ⟨a', go, lists', hrun, h', hlt⟩ := h.field hfuel hb
      rw [hrun]
      cases go with
      | false => exact ⟨a', lists', rfl, h'⟩
      | true => exact ih h' (by omega)

end AckInv

omit [DecidableEq μ] in
theorem total_eq_zero {n : ν} : total lists n = 0 ↔ ∀ i < numStreams, n ∉ lists i := by
  simp only [total, Finset.sum_eq_zero_iff, Finset.mem_range, List.count_eq_zero]

omit [DecidableEq μ] in
/-- On well-formed lists a node is once at most. -/
theorem WellFormed.total_le_one {s : SentLists ν μ} (h : WellFormed s lists) (n : ν) :
    total lists n ≤ 1 := by
  by_cases hn : ∃ i < numStreams, n ∈ lists i
  · obtain ⟨i, hi, hn⟩ := hn
    have hsum : total lists n = (lists i).count n := by
      apply Finset.sum_eq_single i
      · intro j hj hji
        rw [Finset.mem_range] at hj
        exact List.count_eq_zero.mpr fun hm => h.disjoint j hj i hi hji hm hn
      · intro hni
        exact absurd (Finset.mem_range.mpr hi) hni
    rw [hsum]
    exact List.nodup_iff_count_le_one.mp (h.nodup i hi) n
  · rw [total_eq_zero.mpr fun i hi hm => hn ⟨i, hi, hm⟩]
    exact Nat.zero_le 1

/-- Nothing leads to the node: no head, no tail, and no link of a node on the lists. -/
def Unreachable (s : SentLists ν μ) (lists : Nat → List ν) (n : ν) : Prop :=
  ∀ i < numStreams, s.head i ≠ some n ∧ s.tail i ≠ some n ∧
    ∀ x ∈ lists i, s.next x ≠ some n ∧ s.prev x ≠ some n

omit [DecidableEq ν] [DecidableEq μ] in
theorem WellFormed.unreachable {s : SentLists ν μ} (h : WellFormed s lists) {n : ν}
    (hn : ∀ i < numStreams, n ∉ lists i) : Unreachable s lists n := by
  intro i hi
  have hlinked := h.linked i hi
  refine ⟨fun he => hn i hi (hlinked.mem_of_head he), fun he => hn i hi ?_, fun x hx => ?_⟩
  · rw [h.tail i hi] at he
    exact List.mem_of_mem_getLast? he
  · exact ⟨fun he => hn i hi (hlinked.mem_of_next hx he),
      fun he => hn i hi (hlinked.mem_of_prev hx he)⟩

/-- **OnACK** on any bytes: it ends, reads inside of the message, leaves a part of each list, and
frees each node that it removes, once, when nothing leads to it any more. -/
theorem on_ack_wellFormed {s : SentLists ν μ} (h : WellFormed s lists) (msg : List u8) {fuel : Nat}
    (hmsg : msg.length < fuel) (hfuel : ∀ i < numStreams, (lists i).length < fuel) :
    ∃ s' released lists', onAck fuel msg s = some (s', released) ∧ WellFormed s' lists' ∧
      (∀ i < numStreams, (lists' i).Sublist (lists i)) ∧ (releasedNodes released).Nodup ∧
      (∀ n, n ∈ releasedNodes released ↔ ∃ i < numStreams, n ∈ lists i ∧ n ∉ lists' i) ∧
      ∀ n ∈ releasedNodes released, Unreachable s' lists' n := by
  have hinit : AckInv msg lists
      { lists := s, pos := 0, dataBytes := msg.length, stream := numStreams, lastAckId := 0
        node := none, released := [] } lists :=
    ⟨h, fun _ _ => List.Sublist.refl _, fun n => by simp [releasedNodes], Nat.zero_add _, nofun⟩
  obtain ⟨a, lists', hrun, hinv⟩ := hinit.loop hfuel hmsg
  obtain ⟨_, hnack⟩ :=
    hinv.wellFormed.retransmitNegative (hinv.length_lt hfuel) a.stream a.lastAckId
  have hgone : ∀ n ∈ releasedNodes a.released, ∀ i < numStreams, n ∉ lists' i := by
    intro n hn
    have h1 := hinv.count n
    have h2 := h.total_le_one n
    have h3 : 0 < (releasedNodes a.released).count n := List.count_pos_iff.mpr hn
    exact total_eq_zero.mp (by omega)
  refine ⟨a.lists, a.released, lists', ?_, hinv.wellFormed, hinv.sub, ?_, fun n => ⟨?_, ?_⟩,
    fun n hn => hinv.wellFormed.unreachable (hgone n hn)⟩
  · simp only [onAck, hrun, hnack, Option.bind_eq_bind, Option.bind_some]
    rfl
  · apply List.nodup_iff_count_le_one.mpr
    intro n
    have h1 := hinv.count n
    have h2 := h.total_le_one n
    omega
  · intro hn
    have h1 := hinv.count n
    have h3 : 0 < (releasedNodes a.released).count n := List.count_pos_iff.mpr hn
    by_contra hno
    have hzero : total lists n = 0 :=
      total_eq_zero.mpr fun i hi hm => hno ⟨i, hi, hm, hgone n hn i hi⟩
    omega
  · rintro ⟨i, hi, hn, hn'⟩
    have h1 := hinv.count n
    have hpos : total lists n ≠ 0 := fun hz => total_eq_zero.mp hz i hi hn
    have hzero : total lists' n = 0 := by
      apply total_eq_zero.mpr
      intro j hj hm
      by_cases hij : i = j
      · exact hn' (hij ▸ hm)
      · exact h.disjoint i hi j hj hij hn ((hinv.sub j hj).subset hm)
    exact List.count_pos_iff.mp (by omega)

/-- Three nodes on the first stream, with the ids 10, 11 and 12. -/
def threeNodes : SentLists Nat Nat where
  next := fun n => if n = 1 then some 2 else if n = 2 then some 3 else none
  prev := fun n => if n = 2 then some 1 else if n = 3 then some 2 else none
  id := fun n => BitVec.ofNat 32 (n + 9)
  head := fun i => if i = 0 then some 1 else none
  tail := fun i => if i = 0 then some 3 else none
  sendNextRemoteExpected := fun _ => 0
  fullData := fun _ => none
  fragCount := fun _ => 0
  allSent := fun _ => false

def threeLists : Nat → List Nat := fun i => if i = 0 then [1, 2, 3] else []

theorem threeNodes_wellFormed : WellFormed threeNodes threeLists := by
  constructor
  · intro i _
    by_cases h0 : i = 0
    · subst h0
      exact ⟨⟨rfl, rfl, rfl, rfl⟩, ⟨rfl, rfl, rfl, rfl⟩⟩
    · simp only [threeNodes, threeLists, h0, if_false]
      exact linked_nil _ _
  · intro i _
    by_cases h0 : i = 0
    · subst h0
      rfl
    · simp [threeNodes, threeLists, h0]
  · decide
  · intro i _ j _ hij
    by_cases h0 : i = 0
    · have hj : j ≠ 0 := fun hj => hij (h0.trans hj.symm)
      simp [threeLists, hj]
    · simp [threeLists, h0]

/-- A rollup up to 11 and the range of 12 and 13. -/
theorem on_ack_threeNodes :
    (∃ s' released lists', onAck 8 [0x59, 0, 0, 0x06, 0x01] threeNodes = some (s', released) ∧
      WellFormed s' lists' ∧ (∀ i < numStreams, (lists' i).Sublist (threeLists i)) ∧
      (releasedNodes released).Nodup ∧
      (∀ n, n ∈ releasedNodes released ↔ ∃ i < numStreams, n ∈ threeLists i ∧ n ∉ lists' i) ∧
      ∀ n ∈ releasedNodes released, Unreachable s' lists' n) ∧
    (onAck 8 [0x59, 0, 0, 0x06, 0x01] threeNodes).map (·.2) = some [.node 1, .node 3] :=
  ⟨on_ack_wellFormed threeNodes_wellFormed _ (by decide) (by decide), by decide⟩

end Fields

end Libcat.Sphynx
