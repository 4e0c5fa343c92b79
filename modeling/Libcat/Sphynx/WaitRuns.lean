import Libcat.Sphynx.RecvQueue
import Mathlib.Data.List.SplitBy

/-!
# The sequences of the wait list

`StoreReliableOutOfOrder` and `RunReliableReceiveQueue` in any order, as long as the ids do not wrap, and
the acknowledgement that `WriteACK` makes of the list. `eosWalk` follows `eos->next` from the head;
`maximalRuns` cuts the list wherever an id is missing. `wait_list` says that they are the same.
-/

namespace Libcat.Sphynx

open Serial

section Model

/-- A call on the stream. A store may find no memory for its node. -/
inductive WaitCall where
  | store (ackId : u32) (sop : SuperOpcode) (data : List u8) (memory : Bool)
  | run (ackId : u32)

def waitStep (ordered : Bool) (s : RecvStream) : WaitCall → RecvStream × List RecvEvent
  | .store ackId sop data memory =>
    let r := storeReliableOutOfOrder ordered s ackId sop data
    if memory then r else ({ s with delivery := r.1.delivery }, r.2)
  | .run ackId => runReliableReceiveQueue s ackId

/-- The nodes reached by `eos->next` from the head, each with its `eos`. -/
def eosWalk : Nat → List RecvNode → Option (List (RecvNode × RecvNode))
  | _, [] => some []
  | 0, _ :: _ => none
  | steps + 1, node :: rest =>
    match node.eos.bind fun a => splitAtAddr a (node :: rest) with
    | none => none
    | some (_, eos, after) => (eosWalk steps after).map fun visited => (node, eos) :: visited

/-- START of a range, and its flag for an END. -/
def ackStart (startOffset endOffset : u32) : List u8 :=
  let ackHdr : u8 := ((if endOffset = 0 then 0 else 2) ||| startOffset <<< 2).setWidth 8
  if startOffset &&& ~~~ 0x1f = 0 then [ackHdr]
  else if startOffset &&& ~~~ 0xfff = 0 then [ackHdr ||| 0x80, (startOffset >>> 5).setWidth 8]
  else [ackHdr ||| 0x80, (startOffset >>> 5 ||| 0x80).setWidth 8, (startOffset >>> 12).setWidth 8]

/-- END of a range, if there is more than one id in it. -/
def ackEnd (endOffset : u32) : List u8 :=
  if endOffset = 0 then []
  else if endOffset &&& ~~~ 0x7f = 0 then [endOffset.setWidth 8]
  else if endOffset &&& ~~~ 0x3fff = 0 then
    [(endOffset ||| 0x80).setWidth 8, (endOffset >>> 7).setWidth 8]
  else [(endOffset ||| 0x80).setWidth 8, (endOffset >>> 7 ||| 0x80).setWidth 8,
    (endOffset >>> 14).setWidth 8]

/-- What the loop of `WriteACK` has gone through, what it wrote, the nodes that it has not come to and
the space that is left. -/
structure AckRanges where
  visited : List (RecvNode × RecvNode)
  bytes : List u8
  rest : List RecvNode
  remaining : Nat

/-- The loop of `WriteACK` over the ranges, with `loops` of them to go. -/
def ackRanges : Nat → Nat → u32 → List RecvNode → Option AckRanges
  | _, remaining, _, [] => some ⟨[], [], [], remaining⟩
  | 0, remaining, _, node :: rest => some ⟨[], [], node :: rest, remaining⟩
  | loops + 1, remaining, lastId, node :: rest =>
    if remaining < 6 then some ⟨[], [], node :: rest, remaining⟩
    else
      match node.eos.bind fun a => splitAtAddr a (node :: rest) with
      | none => none
      | some (_, eos, after) =>
        let endOffset := eos.id - node.id
        let bytes := ackStart (node.id - lastId) endOffset ++ ackEnd endOffset
        (ackRanges loops (remaining - bytes.length) eos.id after).map fun r =>
          { r with visited := (node, eos) :: r.visited, bytes := bytes ++ r.bytes }

/-- `WriteACK` for one stream that has got reliable messages. -/
def writeAckStream (stream : Nat) (s : RecvStream) (remaining : Nat) : Option (RecvStream × AckRanges) :=
  if remaining < 3 then some (s, ⟨[], [], s.wait, remaining⟩)
  else
    let rollup := s.nextRecvExpectedId
    let bytes : List u8 := [
      (1 ||| BitVec.ofNat 32 stream <<< 1 ||| (rollup &&& 31) <<< 3).setWidth 8,
      (rollup >>> 5).setWidth 8, (rollup >>> 13).setWidth 8]
    (ackRanges outOfOrderLoops (remaining - 3) rollup s.wait).map fun r =>
      ({ s with gotReliable := !r.rest.isEmpty }, { r with bytes := bytes ++ r.bytes })

end Model

/-! ## The condition -/

/-- The ids stay between the id that is expected and the largest one. -/
def WaitCall.InRange (s : RecvStream) : WaitCall → Prop
  | .store ackId _ _ _ => s.nextRecvExpectedId ≤ ackId
  | .run ackId => ∀ n ∈ s.wait, ackId ≤ n.id

instance (s : RecvStream) : ∀ call, Decidable (WaitCall.InRange s call)
  | .store ackId _ _ _ => inferInstanceAs (Decidable (s.nextRecvExpectedId ≤ ackId))
  | .run ackId => inferInstanceAs (Decidable (∀ n ∈ s.wait, ackId ≤ n.id))

/-- The list cut wherever the next id is not the successor. -/
def maximalRuns (wait : List RecvNode) : List (List RecvNode) :=
  wait.splitBy fun a b => b.id == a.id + 1

/-- The first and the last nodes of runs. -/
def ends (runs : List (List RecvNode)) : List (Option RecvNode × Option RecvNode) :=
  runs.map fun run => (run.head?, run.getLast?)

/-! ## Runs of the list -/

section Lists

variable {runs : List Run}

theorem maximalRuns_flat (hsep : Separated runs) : maximalRuns (flat runs) = runs.map Run.nodes := by
  rw [maximalRuns, List.splitBy_eq_iff]
  refine ⟨rfl, ?_, ?_, ?_⟩
  · intro hmem
    obtain ⟨r, -, hr⟩ := List.mem_map.mp hmem
    exact List.cons_ne_nil _ _ hr
  · intro nodes hmem
    obtain ⟨r, -, rfl⟩ := List.mem_map.mp hmem
    have hchain := r.chain
    rw [List.isChain_map] at hchain
    exact hchain.imp fun a b h => by simpa using h
  · rw [List.isChain_map]
    refine hsep.imp fun r q h => ⟨List.cons_ne_nil _ _, List.cons_ne_nil _ _, ?_⟩
    exact beq_eq_false_iff_ne.mpr (Ne.symm h)

theorem ends_nodes : ends (runs.map Run.nodes) = runs.map fun r => (some r.head, some r.last) := by
  rw [ends, List.map_map]
  refine List.map_congr_left fun r _ => ?_
  rw [Function.comp_apply, r.nodes_eq_dropLast, List.getLast?_concat, ← r.nodes_eq_dropLast]
  rfl

theorem length_le_flat (runs : List Run) : runs.length ≤ (flat runs).length := by
  induction runs with
  | nil => exact Nat.le_refl _
  | cons r rest ih =>
    rw [flat_cons, List.length_append, Run.nodes]
    simp only [List.length_cons]
    omega

theorem eosWalk_flat {steps : Nat} (hnd : ((flat runs).map RecvNode.addr).Nodup)
    (hsteps : runs.length ≤ steps) :
    eosWalk steps (flat runs) = some (runs.map fun r => (r.head, r.last)) := by
  induction runs generalizing steps with
  | nil => cases steps <;> rfl
  | cons r rest ih =>
    cases steps with
    | zero => simp at hsteps
    | succ steps =>
      rw [flat_cons] at hnd ⊢
      have hsplit := r.split (flat rest) hnd
      rw [List.map_append] at hnd
      rw [Run.nodes, List.cons_append] at hsplit ⊢
      rw [eosWalk, hsplit]
      simp only [ih (List.nodup_append.mp hnd).2.1 (Nat.le_of_succ_le_succ hsteps)]
      rfl

theorem length_ackBytes (startOffset endOffset : u32) :
    (ackStart startOffset endOffset ++ ackEnd endOffset).length ≤ 6 := by
  unfold ackStart ackEnd
  simp only
  split_ifs <;> simp

/-- The ranges of the acknowledgement are the first runs of the list. -/
theorem ackRanges_flat {loops remaining : Nat} {lastId : u32}
    (hnd : ((flat runs).map RecvNode.addr).Nodup) :
    ∃ j bytes left, ackRanges loops remaining lastId (flat runs) =
        some ⟨(runs.take j).map fun r => (r.head, r.last), bytes, flat (runs.drop j), left⟩ ∧
      j ≤ loops ∧ (j < runs.length → j = loops ∨ left < 6) ∧ remaining ≤ left + 6 * j := by
  induction runs generalizing loops remaining lastId with
  | nil => exact ⟨0, [], remaining, by simp [ackRanges], by omega, by simp, by omega⟩
  | cons r rest ih =>
    rw [flat_cons] at hnd
    have hsplit := r.split (flat rest) hnd
    rw [List.map_append] at hnd
    have hshape : flat (r :: rest) = r.head :: (r.tail ++ flat rest) := by simp [Run.nodes]
    rw [Run.nodes, List.cons_append] at hsplit
    cases loops with
    | zero =>
      refine ⟨0, [], remaining, ?_, Nat.le_refl _, fun _ => .inl rfl, by omega⟩
      rw [List.take_zero, List.drop_zero, hshape]
      rfl
    | succ loops =>
      by_cases hspace : remaining < 6
      · refine ⟨0, [], remaining, ?_, by omega, fun _ => .inr hspace, by omega⟩
        rw [List.take_zero, List.drop_zero, hshape, ackRanges, if_pos hspace]
        rfl
      · obtain ⟨j, bytes, left, hrun, hle, hstop, hleft⟩ := @ih loops
          (remaining - (ackStart (r.head.id - lastId) (r.last.id - r.head.id) ++
            ackEnd (r.last.id - r.head.id)).length) r.last.id (List.nodup_append.mp hnd).2.1
        have hbytes := length_ackBytes (r.head.id - lastId) (r.last.id - r.head.id)
        refine ⟨j + 1, ackStart (r.head.id - lastId) (r.last.id - r.head.id) ++
          ackEnd (r.last.id - r.head.id) ++ bytes, left, ?_, by omega, fun hj => ?_, by omega⟩
        · rw [hshape, ackRanges, if_neg hspace, hsplit]
          simp only [hrun]
          rfl
        · have := hstop (by simpa using hj)
          omega

theorem writeAckStream_eq (stream : Nat) {s : RecvStream} {remaining : Nat} (hspace : 3 ≤ remaining) :
    ∃ header, writeAckStream stream s remaining =
      (ackRanges outOfOrderLoops (remaining - 3) s.nextRecvExpectedId s.wait).map fun r =>
        ({ s with gotReliable := !r.rest.isEmpty }, { r with bytes := header ++ r.bytes }) :=
  ⟨_, by rw [writeAckStream, if_neg (by omega)]⟩

end Lists

/-! ## The invariant -/

/-- The list in ascending order of ids that are not below the expected one, in runs. -/
structure WaitOk (s : RecvStream) : Prop where
  runs : ∃ runs, s.wait = flat runs ∧ Separated runs
  nodup : (s.wait.map RecvNode.addr).Nodup
  fresh : ∀ a ∈ s.wait.map RecvNode.addr, a < s.nextAddr
  sorted : s.wait.Pairwise fun a b => a.id < b.id
  expected : ∀ n ∈ s.wait, s.nextRecvExpectedId ≤ n.id
  size : s.size = s.wait.length
  size_le : s.size ≤ outOfOrderLimit

namespace WaitOk

variable {ordered : Bool} {s : RecvStream}

theorem initial (e : u32) : WaitOk (initialStream e) where
  runs := ⟨[], rfl, List.isChain_nil⟩
  nodup := List.nodup_nil
  fresh := by simp [initialStream]
  sorted := List.Pairwise.nil
  expected := by simp [initialStream]
  size := rfl
  size_le := Nat.zero_le _

/-- The invariant does not speak of the delivery queue. -/
theorem deliver (h : WaitOk s) (delivery : Delivery) : WaitOk { s with delivery := delivery } :=
  ⟨h.runs, h.nodup, h.fresh, h.sorted, h.expected, h.size, h.size_le⟩

/-- One more node where it belongs. -/
theorem insert {x : u32} {before next wait' : List RecvNode} {new : RecvNode} (h : WaitOk s)
    (hw : s.wait = before ++ next) (hid : new.id = x) (haddr : new.addr = s.nextAddr)
    (hx : s.nextRecvExpectedId ≤ x) (hlt : ∀ n ∈ before, n.id < x) (hgt : ∀ n ∈ next, x < n.id)
    (hruns : ∃ runs, wait' = flat runs ∧ Separated runs)
    (herase : wait'.map RecvNode.erase = (before ++ new :: next).map RecvNode.erase)
    (hsize : s.size < outOfOrderLimit) (gotReliable : Bool) (delivery : Delivery) :
    WaitOk
      { s with
        wait := wait'
        size := s.size + 1
        gotReliable := gotReliable
        nextAddr := s.nextAddr + 1
        delivery := delivery } := by
  have haddrs : wait'.map RecvNode.addr = (before ++ new :: next).map RecvNode.addr :=
    map_of_erase (fun _ => rfl) herase
  have hids : wait'.map RecvNode.id = (before ++ new :: next).map RecvNode.id :=
    map_of_erase (fun _ => rfl) herase
  have hlen := congrArg List.length herase
  rw [List.length_map, List.length_map, List.length_append, List.length_cons] at hlen
  have hfresh := h.fresh
  have hnd := h.nodup
  have hsort := h.sorted
  have hsize' := h.size
  have hexp := h.expected
  rw [hw] at hfresh hnd hsort hsize' hexp
  have hnew : s.nextAddr ∉ (before ++ next).map RecvNode.addr := fun hm =>
    Nat.lt_irrefl _ (hfresh _ hm)
  rw [List.map_append] at hnd
  refine ⟨hruns, ?_, ?_, ?_, ?_, ?_, hsize⟩
  · rw [haddrs, List.map_append, List.map_cons, haddr]
    refine List.nodup_middle.mpr (List.nodup_cons.mpr ⟨?_, hnd⟩)
    rwa [← List.map_append]
  · intro a ha
    rw [haddrs, List.map_append, List.map_cons, haddr] at ha
    rcases List.mem_append.mp ha with ha | ha
    · have := hfresh a (by rw [List.map_append]; exact List.mem_append_left _ ha)
      exact Nat.lt_succ_of_lt this
    · rcases List.mem_cons.mp ha with rfl | ha
      · exact Nat.lt_succ_self _
      · have := hfresh a (by rw [List.map_append]; exact List.mem_append_right _ ha)
        exact Nat.lt_succ_of_lt this
  · rw [← List.pairwise_map (f := RecvNode.id) (R := (· < ·)), hids, List.pairwise_map]
    obtain ⟨hb, hn, hbn⟩ := List.pairwise_append.mp hsort
    refine List.pairwise_append.mpr ⟨hb, List.pairwise_cons.mpr ⟨fun n hn => ?_, hn⟩,
      fun a ha b hb => ?_⟩
    · rw [hid]
      exact hgt n hn
    · rcases List.mem_cons.mp hb with rfl | hb
      · rw [hid]
        exact hlt a ha
      · exact hbn a ha b hb
  · intro n hn
    have hm := List.mem_map_of_mem (f := RecvNode.id) hn
    rw [hids] at hm
    obtain ⟨m, hm, hmn⟩ := List.mem_map.mp hm
    rw [← hmn]
    rcases List.mem_append.mp hm with hm | hm
    · exact hexp m (List.mem_append_left _ hm)
    · rcases List.mem_cons.mp hm with rfl | hm
      · rwa [hid]
      · exact hexp m (List.mem_append_right _ hm)
  · rw [List.length_append] at hsize'
    simp only
    omega

/-- A store leaves no pointer that leads nowhere. -/
theorem store (h : WaitOk s) {x : u32} (hx : s.nextRecvExpectedId ≤ x) (sop : SuperOpcode)
    (data : List u8) :
    WaitOk (storeReliableOutOfOrder ordered s x sop data).1 ∧
      .wildPointer ∉ (storeReliableOutOfOrder ordered s x sop data).2 := by
  obtain ⟨runs, hflat, hsep⟩ := h.runs
  rcases @store_split ordered s x sop data runs hflat hsep h.nodup h.sorted with e | ⟨before, next, wait', hw, hlt, hgt, herase, hruns, -, hsize, e⟩
  · rw [e]
    exact ⟨h, List.not_mem_nil⟩
  · rw [e]
    refine ⟨h.insert hw rfl rfl hx hlt hgt hruns herase hsize _ _, ?_⟩
    obtain ⟨-, hwild⟩ := processed_processMessage s.delivery none x sop data
    simp only
    split
    · exact hwild
    · exact List.not_mem_nil

/-- What the drain loop keeps is not below the id that it ends with. -/
theorem drop_ready_le {wait : List RecvNode} {a : u32} (hsort : wait.Pairwise fun a b => a.id < b.id)
    (ha : ∀ n ∈ wait, a ≤ n.id) :
    ∀ n ∈ wait.drop (readyNodes a wait).length,
      a + BitVec.ofNat 32 (readyNodes a wait).length ≤ n.id := by
  induction wait generalizing a with
  | nil => simp
  | cons m rest ih =>
    obtain ⟨hm, hrest⟩ := List.pairwise_cons.mp hsort
    by_cases hid : m.id = a
    · have hnext : ∀ n ∈ rest, a + 1 ≤ n.id := fun n hn => by
        have := hm n hn
        rw [hid] at this
        bv_omega
      intro n hn
      rw [readyNodes, if_pos hid, List.length_cons, List.drop_succ_cons] at hn
      rw [readyNodes, if_pos hid, List.length_cons, ← add_one_ofNat]
      exact ih hrest hnext n hn
    · intro n hn
      rw [readyNodes, if_neg hid] at hn ⊢
      simpa using ha n hn

/-- The drain loop takes whole runs off the front of the list. -/
theorem run (h : WaitOk s) {a : u32} (ha : ∀ n ∈ s.wait, a ≤ n.id) :
    WaitOk (runReliableReceiveQueue s a).1 ∧ .wildPointer ∉ (runReliableReceiveQueue s a).2 := by
  obtain ⟨hd1, hd2, -, hd4⟩ := drain_spec a s.wait s.delivery
  obtain ⟨runs, hflat, hsep⟩ := h.runs
  have hruns := drop_ready_runs hsep a
  rw [← hflat] at hruns
  have hle : (readyNodes a s.wait).length ≤ s.wait.length := by
    have := congrArg List.length (readyNodes_take a s.wait)
    rw [List.length_take] at this
    omega
  have hbeyond := drop_ready_le h.sorted ha
  have hsize := h.size
  have hlimit := h.size_le
  have hlimit' : outOfOrderLimit < 2 ^ 32 := by decide
  generalize hk : (readyNodes a s.wait).length = k at *
  have hsub : (s.wait.drop k).Sublist s.wait := List.drop_sublist k s.wait
  have hcut : subU32 s.size (ahead (a + BitVec.ofNat 32 k) a) = s.wait.length - k := by
    rw [ahead_add_ofNat _ (by omega), subU32_of_le (by omega) (by omega), hsize]
  refine ⟨?_, hd4⟩
  simp only [runReliableReceiveQueue, hd1, hd2, hcut]
  refine ⟨hruns, h.nodup.sublist (hsub.map _), fun b hb => h.fresh b ((hsub.map _).subset hb),
    h.sorted.sublist hsub, hbeyond, ?_, ?_⟩
  · simp only [List.length_drop]
  · simp only
    omega

theorem step (h : WaitOk s) (call : WaitCall) (hcall : call.InRange s) :
    WaitOk (waitStep ordered s call).1 ∧ .wildPointer ∉ (waitStep ordered s call).2 := by
  cases call with
  | store x sop data memory =>
    obtain ⟨hok, hwild⟩ := @store ordered s h x hcall sop data
    cases memory with
    | true => exact ⟨hok, hwild⟩
    | false => exact ⟨h.deliver _, hwild⟩
  | run a => exact h.run hcall

end WaitOk

/-- **The wait list** as long as the ids do not wrap. It ascends; the runs reached by `eos->next` are its
maximal runs, each with its last node as the `eos` of the first one; the size is the number of nodes.
`WriteACK` goes through the first runs in order, each once, and stops where the list ends, after
`OUT_OF_ORDER_LOOPS` runs, or with less than six bytes of space. What it did not come to is left for the
next acknowledgement: `_got_reliable` stays set. -/
theorem wait_list (ordered : Bool) (e₀ : u32) (calls : List WaitCall)
    (hcalls : Run.Guarded (waitStep ordered) WaitCall.InRange (initialStream e₀) calls) :
    let r := Run.exec (waitStep ordered) (initialStream e₀) calls
    let runs := maximalRuns r.1.wait
    .wildPointer ∉ r.2 ∧
    (r.1.wait.Pairwise fun a b => a.id < b.id) ∧ (∀ n ∈ r.1.wait, r.1.nextRecvExpectedId ≤ n.id) ∧
    (∃ walk, eosWalk r.1.wait.length r.1.wait = some walk ∧
      walk.map (fun v => (some v.1, some v.2)) = ends runs) ∧
    r.1.size = r.1.wait.length ∧
    ∀ stream remaining, 3 ≤ remaining → ∃ j bytes left visited,
      writeAckStream stream r.1 remaining =
          some ({ r.1 with gotReliable := !(runs.drop j).flatten.isEmpty },
            ⟨visited, bytes, (runs.drop j).flatten, left⟩) ∧
        visited.map (fun v => (some v.1, some v.2)) = ends (runs.take j) ∧
        j ≤ outOfOrderLoops ∧ (j < runs.length → j = outOfOrderLoops ∨ left < 6) ∧
        remaining ≤ left + 6 * j + 3 := by
  intro r runs
  have hinv : WaitOk r.1 ∧ .wildPointer ∉ [] ++ r.2 :=
    Run.exec_inv (fun s log => WaitOk s ∧ .wildPointer ∉ log)
      (fun s log call h hcall => by
        obtain ⟨hok, hwild⟩ := @WaitOk.step ordered s h.1 call hcall
        exact ⟨hok, fun hm => (List.mem_append.mp hm).elim h.2 hwild⟩)
      calls (initialStream e₀) [] ⟨WaitOk.initial e₀, List.not_mem_nil⟩ hcalls
  obtain ⟨hok, hwild⟩ := hinv
  obtain ⟨rs, hflat, hsep⟩ := hok.runs
  have hnd := hok.nodup
  rw [hflat] at hnd
  have hruns : runs = rs.map Run.nodes := by
    simp only [runs, hflat]
    exact maximalRuns_flat hsep
  refine ⟨hwild, hok.sorted, hok.expected, ⟨rs.map fun q => (q.head, q.last), ?_, ?_⟩, hok.size,
    fun stream remaining hspace => ?_⟩
  · rw [hflat]
    exact eosWalk_flat hnd (length_le_flat rs)
  · rw [hruns, ends_nodes, List.map_map]
    rfl
  · obtain ⟨j, bytes, left, hrun, hle, hstop, hleft⟩ :=
      @ackRanges_flat rs outOfOrderLoops (remaining - 3) r.1.nextRecvExpectedId hnd
    have hrest : (runs.drop j).flatten = flat (rs.drop j) := by
      rw [hruns, ← List.map_drop]
      rfl
    obtain ⟨header, hwrite⟩ := @writeAckStream_eq stream r.1 remaining hspace
    refine ⟨j, header ++ bytes, left, (rs.take j).map fun q => (q.head, q.last), ?_, ?_, hle,
      by rwa [hruns, List.length_map], by omega⟩
    · rw [← hflat] at hrun
      rw [hwrite, hrun, hrest]
      rfl
    · rw [hruns, ← List.map_take, ends_nodes, List.map_map]
      rfl

/-- Stores in front of, behind and between the others, and the first run drained. -/
def fourStores : List WaitCall :=
  [.store 8 .sopData [1] true, .store 6 .sopData [2] true, .store 7 .sopData [3] true,
    .store 12 .sopFrag [] true, .store 9 .sopData [4] false, .run 6]

theorem wait_list_four_stores :
    let r := Run.exec (waitStep true) (initialStream 5) fourStores
    Run.Guarded (waitStep true) WaitCall.InRange (initialStream 5) fourStores ∧
      r.1.wait.map RecvNode.id = [12] ∧ r.1.size = r.1.wait.length := by
  intro r
  have hcalls : Run.Guarded (waitStep true) WaitCall.InRange (initialStream 5) fourStores := by
    decide +kernel
  obtain ⟨-, -, -, -, hsize, -⟩ := wait_list true 5 fourStores hcalls
  exact ⟨hcalls, by decide +kernel, hsize⟩

/-- 33 stores, each in front of the others. -/
def descendingStores : List WaitCall :=
  (List.range 33).map fun i => .store (BitVec.ofNat 32 (100 - 2 * i)) .sopData [1] true

/-- With 33 runs the acknowledgement stops one short, with space for the largest datagram. -/
theorem not_wait_list :
    let r := Run.exec (waitStep true) (initialStream 5) descendingStores
    Run.Guarded (waitStep true) WaitCall.InRange (initialStream 5) descendingStores ∧
      (maximalRuns r.1.wait).length = 33 ∧
      (writeAckStream 0 r.1 1500).map (fun a => a.2.visited.length) = some 32 := by
  decide +kernel

end Libcat.Sphynx
