import Libcat.Sphynx.RecvQueue

/-!
# Runs of the reliable receive queue

`RecvInv` relates a stream to the position it has come to, `Intact` the contents handed to the
application to the messages processed. `receive_queue` is the result over whole runs.
-/

namespace Libcat.Sphynx

open Serial

/-! ## Runs -/

section Runs

variable {ordered : Bool} {payload : u32 → SuperOpcode × List u8} {e₀ : u32}

/-- The call for the message at a position of the stream. -/
def callAt (payload : u32 → SuperOpcode × List u8) (e₀ : u32) (p : Nat) :
    Option (u32 × SuperOpcode × List u8) :=
  let id := e₀ + BitVec.ofNat 32 p
  callOf id (payload id).1 (payload id).2

/-- The ids of the processed messages that are not fragments. -/
def nonFragIds (calls : List (u32 × SuperOpcode × List u8)) : List u32 :=
  calls.filterMap fun c => if c.2.1 = .sopFrag then none else some c.1

def RecvInput.isArrival : RecvInput → Bool
  | .arrive _ => true
  | .deliver => false

/-- The state and the log after the arrivals of `done`, the stream being at position `E`. -/
structure RecvInv (ordered : Bool) (payload : u32 → SuperOpcode × List u8) (e₀ : u32) (E : Nat)
    (done : List RecvInput) (s : RecvStream) (log : List RecvEvent) : Prop where
  expected : s.nextRecvExpectedId = e₀ + BitVec.ofNat 32 E
  wait : WaitInv s.nextRecvExpectedId s.wait s.nextAddr
  payloads : ∀ n ∈ s.wait, n.erase = storedNode ordered n.addr n.id (payload n.id).1 (payload n.id).2
  count : E + s.wait.length ≤ done.countP RecvInput.isArrival
  no_wild : .wildPointer ∉ log
  in_order : ordered = true → processed log = (List.range E).filterMap (callAt payload e₀)
  once : ordered = false → ∃ ps : List Nat,
    nonFragIds (processed log) = ps.map (fun p => e₀ + BitVec.ofNat 32 p) ∧ ps.Nodup ∧
      ∀ p ∈ ps, p < E ∨ ∃ n ∈ s.wait, p = E + n.off s.nextRecvExpectedId

theorem nonFragIds_append (l l' : List (u32 × SuperOpcode × List u8)) :
    nonFragIds (l ++ l') = nonFragIds l ++ nonFragIds l' := by simp [nonFragIds]

theorem nonFragIds_callOf (id : u32) (sop : SuperOpcode) (data : List u8) :
    nonFragIds (callOf id sop data).toList = [] ∨ nonFragIds (callOf id sop data).toList = [id] := by
  cases sop <;> simp only [callOf, nonFragIds] <;> try (split <;> simp)
  · simp
  · simp

/-- An unordered stream has nothing left to do for a node that is not a fragment. -/
theorem nonFragIds_stored (nodes : List RecvNode)
    (h : ∀ n ∈ nodes, n.erase = storedNode false n.addr n.id (payload n.id).1 (payload n.id).2) :
    nonFragIds (nodes.filterMap fun n => callOf n.id n.sop n.data) = [] := by
  induction nodes with
  | nil => rfl
  | cons n nodes ih =>
    have hn := h n (by simp)
    have hsop : n.sop = (payload n.id).1 := congrArg RecvNode.sop hn
    have hdata : n.data = if atOnce false (payload n.id).1 then [] else (payload n.id).2 :=
      congrArg RecvNode.data hn
    have hone : nonFragIds (callOf n.id n.sop n.data).toList = [] := by
      rw [hdata, ← hsop]
      cases n.sop <;> simp [atOnce, callOf, nonFragIds]
    have hcons : (n :: nodes).filterMap (fun n => callOf n.id n.sop n.data) =
        (callOf n.id n.sop n.data).toList ++ nodes.filterMap fun n => callOf n.id n.sop n.data := by
      rw [List.filterMap_cons]
      cases callOf n.id n.sop n.data <;> rfl
    rw [hcons, nonFragIds_append, hone, ih fun m hm => h m (by simp [hm])]
    rfl

/-- An ordered stream processes the payloads of the ready ids. -/
theorem ready_calls (nodes : List RecvNode)
    (h : ∀ n ∈ nodes, n.erase = storedNode true n.addr n.id (payload n.id).1 (payload n.id).2) :
    nodes.filterMap (fun n => callOf n.id n.sop n.data) =
      (nodes.map RecvNode.id).filterMap fun id => callOf id (payload id).1 (payload id).2 := by
  rw [List.filterMap_map]
  refine List.filterMap_congr fun n hn => ?_
  have hn := h n hn
  have hsop : n.sop = (payload n.id).1 := congrArg RecvNode.sop hn
  have hdata : n.data = if atOnce true (payload n.id).1 then [] else (payload n.id).2 :=
    congrArg RecvNode.data hn
  have hfalse : atOnce true (payload n.id).1 = false := rfl
  rw [hfalse, if_neg (by simp)] at hdata
  rw [Function.comp_apply, hsop, hdata]

theorem ready_subset (next : u32) (wait : List RecvNode) : ∀ n ∈ readyNodes next wait, n ∈ wait := by
  intro n hn
  rw [← readyNodes_take next wait] at hn
  exact List.mem_of_mem_take hn

/-- A waiting node is drained or stays. -/
theorem mem_ready_or_drop (next : u32) {wait : List RecvNode} {n : RecvNode} (hn : n ∈ wait) :
    n ∈ readyNodes next wait ∨ n ∈ wait.drop (readyNodes next wait).length := by
  rw [← List.take_append_drop (readyNodes next wait).length wait, List.mem_append,
    readyNodes_take] at hn
  exact hn

/-- The ids of the ready nodes, as distances. -/
theorem off_ready {e : u32} {wait : List RecvNode} {n : RecvNode}
    (hn : n ∈ readyNodes (e + 1) wait) : n.off e ≤ (readyNodes (e + 1) wait).length := by
  have hid := List.mem_map_of_mem (f := RecvNode.id) hn
  rw [readyNodes_ids] at hid
  obtain ⟨i, hi, hni⟩ := List.mem_map.mp hid
  rw [List.mem_range] at hi
  rw [RecvNode.off, ← hni, add_one_ofNat, ahead, add_sub_cancel_left, BitVec.toNat_ofNat]
  exact Nat.le_trans (Nat.mod_le _ _) hi

/-- The stream moves on by the arrival itself and the nodes it makes ready. -/
theorem RecvInv.inOrder {E : Nat} {done : List RecvInput} {s : RecvStream} {log : List RecvEvent}
    (h : RecvInv ordered payload e₀ E done s log) :
    let x := s.nextRecvExpectedId
    let k := (readyNodes (x + 1) s.wait).length
    RecvInv ordered payload e₀ (E + 1 + k) (done ++ [.arrive x])
      (onReliable ordered s x (payload x).1 (payload x).2).1
      (log ++ (onReliable ordered s x (payload x).1 (payload x).2).2) := by
  intro x k
  obtain ⟨hp, hpw⟩ := processed_processMessage s.delivery none x (payload x).1 (payload x).2
  obtain ⟨hd1, hd2, hd3, hd4⟩ := drain_spec (x + 1) s.wait
    (processMessage s.delivery none x (payload x).1 (payload x).2).1
  have hstep : onReliable ordered s x (payload x).1 (payload x).2 =
      (let p := processMessage s.delivery none x (payload x).1 (payload x).2
      let r := runReliableReceiveQueue { s with delivery := p.1 } (x + 1)
      (r.1, p.2 ++ r.2)) := by
    unfold onReliable
    simp [x]
  have hx : x = e₀ + BitVec.ofNat 32 E := h.expected
  have hexp : x + 1 + BitVec.ofNat 32 k = e₀ + BitVec.ofNat 32 (E + 1 + k) := by
    rw [add_one_ofNat, hx, ← add_ofNat_add, show E + (k + 1) = E + 1 + k by omega]
  have hkle : k ≤ s.wait.length := by
    have := congrArg List.length (readyNodes_take (x + 1) s.wait)
    rw [List.length_take] at this
    omega
  rw [hstep]
  simp only [runReliableReceiveQueue]
  refine ⟨hd1.trans hexp, ?_, ?_, ?_, ?_, ?_, ?_⟩
  · simp only [hd1, hd2]
    exact h.wait.advance
  · intro n hn
    simp only [hd2] at hn
    exact h.payloads n (List.mem_of_mem_drop hn)
  · have := h.count
    simp only [hd2, List.length_drop, List.countP_append, List.countP_singleton,
      RecvInput.isArrival, if_true]
    omega
  · intro hm
    rcases List.mem_append.mp hm with hm | hm
    · exact h.no_wild hm
    · exact (List.mem_append.mp hm).elim hpw hd4
  · intro ho
    subst ho
    have hnodes := ready_calls (readyNodes (x + 1) s.wait)
      fun n hn => h.payloads n (ready_subset _ _ n hn)
    rw [processed_append, processed_append, hp, hd3, h.in_order rfl, hnodes, readyNodes_ids,
      List.range_add, List.range_add, List.filterMap_append, List.filterMap_append,
      List.append_assoc]
    refine congrArg₂ _ rfl (congrArg₂ _ ?_ ?_)
    · have hcall : callAt payload e₀ E = callOf x (payload x).1 (payload x).2 := by
        simp only [callAt, ← hx]
      simp only [List.range_one, List.map_cons, List.map_nil, Nat.add_zero, List.filterMap_cons, hcall]
      cases callOf x (payload x).1 (payload x).2 <;> rfl
    · rw [List.filterMap_map, List.filterMap_map]
      refine List.filterMap_congr fun i _ => ?_
      simp only [Function.comp_apply, callAt]
      rw [add_one_ofNat, hx, ← add_ofNat_add, show E + (i + 1) = E + 1 + i by omega]
  · intro ho
    subst ho
    obtain ⟨ps, hids, hnd, hps'⟩ := h.once rfl
    have hps : ∀ p ∈ ps, p < E ∨ ∃ n ∈ s.wait, p = E + n.off x := hps'
    have hrange : ∀ n ∈ s.wait, 0 < n.off x := fun n hn =>
      (h.wait.range _ (List.mem_map_of_mem hn)).1
    have hE : E ∉ ps := by
      intro hm
      rcases hps E hm with hlt | ⟨n, hn, hEn⟩
      · omega
      · have := hrange n hn
        omega
    have hold : ∀ p ∈ ps, p < E + 1 + k ∨ ∃ n ∈ s.wait.drop k,
        p = E + 1 + k + n.off (x + 1 + BitVec.ofNat 32 k) := by
      intro p hpm
      rcases hps p hpm with hlt | ⟨n, hn, rfl⟩
      · exact .inl (by omega)
      · rcases mem_ready_or_drop (x + 1) hn with hr | hr
        · have := off_ready hr
          exact .inl (by simp only [k]; omega)
        · refine .inr ⟨n, hr, ?_⟩
          have hbeyond : 0 + k + 1 < n.off x :=
            off_of_not_ready s.wait 0 h.wait.sorted (fun n hn => hrange n hn)
              (fun n hn => (h.wait.range _ (List.mem_map_of_mem hn)).2) n hr
          have hoff : n.off (x + 1 + BitVec.ofNat 32 k) = n.off x - (k + 1) := by
            rw [add_one_ofNat]
            exact ahead_add_left (by rw [RecvNode.off] at hbeyond; omega)
          rw [hoff]
          omega
    have hrest := nonFragIds_stored (readyNodes (x + 1) s.wait)
      fun n hn => h.payloads n (ready_subset _ _ n hn)
    rw [processed_append, processed_append, hp, hd3, nonFragIds_append, nonFragIds_append, hrest,
      List.append_nil]
    simp only [hd1, hd2]
    rcases nonFragIds_callOf x (payload x).1 (payload x).2 with hc | hc
    · exact ⟨ps, by rw [hc, List.append_nil, hids], hnd, hold⟩
    · refine ⟨ps ++ [E], by rw [hc, hids, List.map_append, List.map_singleton, ← hx], ?_, ?_⟩
      · exact List.nodup_append.mpr ⟨hnd, List.nodup_singleton _, fun a ha b hb => by
          rw [List.mem_singleton] at hb; rintro rfl; exact hE (hb ▸ ha)⟩
      · intro p hpm
        rcases List.mem_append.mp hpm with hpm | hpm
        · exact hold p hpm
        · rw [List.mem_singleton] at hpm
          exact .inl (by omega)

/-- An early arrival is stored, or nothing happens. -/
theorem RecvInv.early {E : Nat} {done : List RecvInput} {s : RecvStream} {log : List RecvEvent}
    {x : u32} (h : RecvInv ordered payload e₀ E done s log)
    (hx : 0 < (x - s.nextRecvExpectedId).toInt) (hside : SameSide s (.arrive x)) :
    RecvInv ordered payload e₀ E (done ++ [.arrive x])
      (storeReliableOutOfOrder ordered s x (payload x).1 (payload x).2).1
      (log ++ (storeReliableOutOfOrder ordered s x (payload x).1 (payload x).2).2) := by
  have hcount : done.countP RecvInput.isArrival + 1 =
      (done ++ [RecvInput.arrive x]).countP RecvInput.isArrival := by
    rw [List.countP_append]; rfl
  have hold := h.count
  rcases store_cases h.wait hx hside with e | ⟨before, next, wait', hw, herase, hnew, hinv, -, e⟩
  · rw [e, List.append_nil]
    exact ⟨h.expected, h.wait, h.payloads, by simp only; omega, h.no_wild, h.in_order, h.once⟩
  rw [e]
  have hlen : wait'.length = s.wait.length + 1 := by
    have := congrArg List.length herase
    simp only [List.length_map, List.length_append, List.length_cons] at this
    rw [hw, List.length_append]
    omega
  -- a node of the new list is the new one or an old one, pointers apart
  have hmem : ∀ n ∈ wait', n.erase = storedNode ordered s.nextAddr x (payload x).1 (payload x).2 ∨
      ∃ m ∈ s.wait, n.erase = m.erase := by
    intro n hn
    have hm := List.mem_map_of_mem (f := RecvNode.erase) hn
    rw [herase] at hm
    obtain ⟨m, hm, hmn⟩ := List.mem_map.mp hm
    rcases List.mem_append.mp hm with hm | hm
    · exact .inr ⟨m, by rw [hw]; exact List.mem_append_left _ hm, hmn.symm⟩
    · rcases List.mem_cons.mp hm with rfl | hm
      · exact .inl hmn.symm
      · exact .inr ⟨m, by rw [hw]; exact List.mem_append_right _ hm, hmn.symm⟩
  have hkeep : ∀ m ∈ s.wait, ∃ n ∈ wait', n.erase = m.erase := by
    intro m hm
    have : m.erase ∈ wait'.map RecvNode.erase := by
      rw [herase]
      refine List.mem_map_of_mem ?_
      rw [hw] at hm
      rcases List.mem_append.mp hm with hm | hm
      · exact List.mem_append_left _ hm
      · exact List.mem_append_right _ (List.mem_cons_of_mem _ hm)
    obtain ⟨n, hn, hnm⟩ := List.mem_map.mp this
    exact ⟨n, hn, hnm⟩
  obtain ⟨hp, hpw⟩ := processed_processMessage s.delivery none x (payload x).1 (payload x).2
  refine ⟨h.expected, hinv, ?_, by simp only; omega, ?_, ?_, ?_⟩
  · intro n hn
    rcases hmem n hn with he | ⟨m, hm, he⟩
    · have hid : n.id = x := congrArg RecvNode.id he
      have haddr : n.addr = s.nextAddr := congrArg RecvNode.addr he
      rw [he, hid, haddr]
    · rw [he, RecvNode.id_eq he, RecvNode.addr_eq he]
      exact h.payloads m hm
  · intro hm
    rcases List.mem_append.mp hm with hm | hm
    · exact h.no_wild hm
    · simp only at hm
      split at hm
      · exact hpw hm
      · simp at hm
  · rintro rfl
    have hfalse : atOnce true (payload x).1 = false := rfl
    simp only [hfalse, Bool.false_eq_true, if_false, List.append_nil]
    exact h.in_order rfl
  · rintro rfl
    obtain ⟨ps, hids, hnd, hps⟩ := h.once rfl
    have hold : ∀ p ∈ ps, p < E ∨ ∃ n ∈ wait', p = E + n.off s.nextRecvExpectedId := by
      intro p hpm
      rcases hps p hpm with hlt | ⟨m, hm, rfl⟩
      · exact .inl hlt
      · obtain ⟨n, hn, hnm⟩ := hkeep m hm
        exact .inr ⟨n, hn, by rw [RecvNode.off, RecvNode.off, RecvNode.id_eq hnm]⟩
    simp only
    split
    · rw [processed_append, nonFragIds_append, hp]
      rcases nonFragIds_callOf x (payload x).1 (payload x).2 with hc | hc
      · exact ⟨ps, by rw [hc, List.append_nil, hids], hnd, hold⟩
      · have hpos : e₀ + BitVec.ofNat 32 (E + ahead x s.nextRecvExpectedId) = x := by
          rw [add_ofNat_add, ← h.expected, add_ahead]
        refine ⟨ps ++ [E + ahead x s.nextRecvExpectedId], ?_, ?_, ?_⟩
        · rw [hc, hids, List.map_append, List.map_singleton, hpos]
        · refine List.nodup_append.mpr ⟨hnd, List.nodup_singleton _, fun a ha b hb => ?_⟩
          rw [List.mem_singleton] at hb
          rintro rfl
          rcases hps a ha with hlt | ⟨n, hn, han⟩
          · omega
          · refine hnew (List.mem_map.mpr ⟨n, hn, ahead_inj (c := s.nextRecvExpectedId) ?_⟩)
            rw [RecvNode.off] at han
            omega
        · intro p hpm
          rcases List.mem_append.mp hpm with hpm | hpm
          · exact hold p hpm
          · rw [List.mem_singleton] at hpm
            have : storedNode false s.nextAddr x (payload x).1 (payload x).2 ∈
                wait'.map RecvNode.erase := by
              rw [herase]
              exact List.mem_map.mpr ⟨_, List.mem_append_right _ (List.mem_cons_self), rfl⟩
            obtain ⟨n, hn, hnx⟩ := List.mem_map.mp this
            have hid : n.id = x := congrArg RecvNode.id hnx
            exact .inr ⟨n, hn, by rw [hpm, RecvNode.off, hid]⟩
    · exact ⟨ps, by rw [List.append_nil, hids], hnd, hold⟩

/-- One input of the stream. -/
theorem RecvInv.step {E : Nat} {done : List RecvInput} {s : RecvStream} {log : List RecvEvent}
    (h : RecvInv ordered payload e₀ E done s log) (i : RecvInput) (hside : SameSide s i) :
    ∃ E', RecvInv ordered payload e₀ E' (done ++ [i]) (recvStep ordered payload s i).1
      (log ++ (recvStep ordered payload s i).2) := by
  cases i with
  | deliver =>
    refine ⟨E, ?_⟩
    have hquiet : processed (deliverQueued s.delivery).2 = [] ∧
        .wildPointer ∉ (deliverQueued s.delivery).2 := by
      unfold deliverQueued
      split <;> simp [processed]
    have hcount := h.count
    refine ⟨h.expected, h.wait, h.payloads, ?_, ?_, ?_, ?_⟩
    · rw [List.countP_append]
      simp only [recvStep]
      omega
    · exact fun hm => (List.mem_append.mp hm).elim h.no_wild hquiet.2
    · intro ho
      simp only [recvStep, processed_append, hquiet.1, List.append_nil]
      exact h.in_order ho
    · intro ho
      simp only [recvStep, processed_append, hquiet.1, List.append_nil]
      exact h.once ho
  | arrive x =>
    simp only [recvStep]
    by_cases h0 : (x - s.nextRecvExpectedId).toInt = 0
    · have hx : x = s.nextRecvExpectedId := by
        have : x - s.nextRecvExpectedId = 0 := by
          rw [← BitVec.ofInt_toInt (x := x - s.nextRecvExpectedId), h0]; rfl
        exact sub_eq_zero.mp this
      subst hx
      exact ⟨_, h.inOrder⟩
    · by_cases hpos : 0 < (x - s.nextRecvExpectedId).toInt
      · have hstep : onReliable ordered s x (payload x).1 (payload x).2 =
            storeReliableOutOfOrder ordered s x (payload x).1 (payload x).2 := by
          unfold onReliable
          simp only [h0, hpos, if_false, if_true]
        rw [hstep]
        exact ⟨E, h.early hpos hside⟩
      · have hstep : onReliable ordered s x (payload x).1 (payload x).2 =
            ({ s with gotReliable := true }, []) := by
          unfold onReliable
          simp only [h0, hpos, if_false]
        have hcount := h.count
        rw [hstep, List.append_nil]
        exact ⟨E, h.expected, h.wait, h.payloads, by rw [List.countP_append]; simp only; omega,
          h.no_wild, h.in_order, h.once⟩

end Runs

/-! ## The contents handed over -/

/-- Every queued pointer leads into a datagram, and the application gets the data processed. -/
structure Intact (d : Delivery) (log : List RecvEvent) : Prop where
  direct : ∀ q ∈ d.queue, q.1 = none
  contents : handed log ++ d.queue.map (fun q => some q.2) = (dataOf (processed log)).map some

theorem contentOf_direct {freed : List Nat} {queue : List (Option Nat × List u8)}
    (h : ∀ q ∈ queue, q.1 = none) :
    queue.map (contentOf freed) = queue.map fun q => some q.2 :=
  List.map_congr_left fun q hq => by rw [contentOf, h q hq]

/-- An event that processes nothing and hands over nothing. -/
theorem Intact.quiet {d : Delivery} {log l : List RecvEvent} (h : Intact d log)
    (hh : handed l = []) (hp : dataOf (processed l) = []) : Intact d (log ++ l) :=
  ⟨h.direct, by rw [handed_append, hh, processed_append, dataOf_append, hp, List.append_nil,
    List.append_nil, h.contents]⟩

theorem Intact.deliverQueued {d : Delivery} {log : List RecvEvent} (h : Intact d log) :
    Intact (deliverQueued d).1 (log ++ (Sphynx.deliverQueued d).2) := by
  unfold Sphynx.deliverQueued
  split
  · refine ⟨by simp, ?_⟩
    have := h.contents
    simp only [handed_append, processed_append, dataOf_append, contentOf_direct h.direct]
    simpa [handed, processed, dataOf] using this
  · exact h.quiet rfl rfl

theorem Intact.queueDelivery {d : Delivery} {log : List RecvEvent} (h : Intact d log) (id : u32)
    (data : List u8) :
    Intact (queueDelivery d none data).1
      (log ++ .process id .sopData data :: (Sphynx.queueDelivery d none data).2) := by
  have hd : ∀ q ∈ d.queue ++ [(none, data)], q.1 = none := by
    intro q hq
    rcases List.mem_append.mp hq with hq | hq
    · exact h.direct q hq
    · rw [List.mem_singleton.mp hq]
  have hc := h.contents
  have hone : dataOf [(id, .sopData, data)] = [data] := rfl
  unfold Sphynx.queueDelivery
  simp only
  split
  · refine ⟨hd, ?_⟩
    have hh : handed [RecvEvent.process id .sopData data] = [] := rfl
    have hp : processed [RecvEvent.process id .sopData data] = [(id, .sopData, data)] := rfl
    simp only [handed_append, processed_append, dataOf_append, List.map_append, hh, hp, hone,
      List.append_nil, ← hc, List.map_cons, List.map_nil, List.append_assoc]
  · refine ⟨by simp, ?_⟩
    rw [contentOf_direct hd]
    have hh : ∀ c, handed [RecvEvent.process id .sopData data, .onMessages c] = c := fun c => by
      simp [handed]
    have hp : ∀ c, processed [RecvEvent.process id .sopData data, .onMessages c] =
      [(id, .sopData, data)] := fun _ => rfl
    simp only [handed_append, processed_append, dataOf_append, List.map_append, hh, hp, hone,
      List.append_nil, ← hc, List.map_cons, List.map_nil, List.append_assoc]

/-- Data is queued out of a datagram only. -/
theorem Intact.processMessage {d : Delivery} {log : List RecvEvent} (h : Intact d log)
    (src : Option Nat) (id : u32) (sop : SuperOpcode) (data : List u8)
    (hsrc : src = none ∨ (sop = .sopData → data.length = 0)) :
    Intact (processMessage d src id sop data).1 (log ++ (Sphynx.processMessage d src id sop data).2) := by
  cases sop with
  | sopFrag => exact h.quiet rfl rfl
  | sopAck => exact h.quiet rfl rfl
  | sopInternal =>
    simp only [Sphynx.processMessage]
    split
    · exact h.quiet rfl rfl
    · exact h.quiet rfl rfl
  | sopData =>
    simp only [Sphynx.processMessage]
    split
    · next hpos =>
      rcases hsrc with rfl | hzero
      · exact h.queueDelivery id data
      · have := hzero rfl
        omega
    · exact h.quiet rfl rfl

theorem Intact.drain {log : List RecvEvent} (next : u32) (wait : List RecvNode) {d : Delivery}
    (h : Intact d log)
    (hready : ∀ n ∈ readyNodes next wait, n.sop = .sopData → n.data.length = 0) :
    Intact (drain next wait d).2.2.1 (log ++ (Sphynx.drain next wait d).2.2.2) := by
  induction wait generalizing next d log with
  | nil => exact h.quiet rfl rfl
  | cons n rest ih =>
    unfold readyNodes at hready
    unfold Sphynx.drain
    split
    · next hid =>
      rw [if_pos hid] at hready
      have hn := h.processMessage (some n.addr) n.id n.sop n.data (.inr (hready n (by simp)))
      have hfreed : Intact ((Sphynx.processMessage d (some n.addr) n.id n.sop n.data).1.release n.addr)
          (log ++ (Sphynx.processMessage d (some n.addr) n.id n.sop n.data).2) :=
        ⟨hn.direct, hn.contents⟩
      have := ih (next + 1) hfreed fun m hm => hready m (List.mem_cons_of_mem _ hm)
      simpa only [List.append_assoc] using this
    · exact h.quiet rfl rfl

/-- One input, with no data in the nodes it drains. -/
theorem Intact.step {ordered : Bool} {payload : u32 → SuperOpcode × List u8} {s : RecvStream}
    {log : List RecvEvent} (h : Intact s.delivery log) (i : RecvInput) (hdata : NoReadyData s i) :
    Intact (recvStep ordered payload s i).1.delivery (log ++ (recvStep ordered payload s i).2) := by
  cases i with
  | deliver => exact h.deliverQueued
  | arrive x =>
    simp only [recvStep, onReliable]
    split
    · next h0 =>
      have hx : x = s.nextRecvExpectedId := by
        have : x - s.nextRecvExpectedId = 0 := by
          rw [← BitVec.ofInt_toInt (x := x - s.nextRecvExpectedId), h0]; rfl
        exact sub_eq_zero.mp this
      have hp := h.processMessage none x (payload x).1 (payload x).2 (.inl rfl)
      have := hp.drain (x + 1) s.wait (hdata hx)
      simpa only [runReliableReceiveQueue, List.append_assoc] using this
    split
    · unfold storeReliableOutOfOrder
      split
      · exact h.quiet rfl rfl
      split
      · exact h.quiet rfl rfl
      · exact h.quiet rfl rfl
      · exact h.quiet rfl rfl
      split
      · exact h.quiet rfl rfl
      simp only
      split
      · exact h.processMessage none x (payload x).1 (payload x).2 (.inl rfl)
      · exact h.quiet rfl rfl
    · exact h.quiet rfl rfl

/-! ## The stream over a whole run -/

theorem RecvInv.initial (ordered : Bool) (payload : u32 → SuperOpcode × List u8) (e₀ : u32) :
    RecvInv ordered payload e₀ 0 [] (initialStream e₀) [] where
  expected := by simp [initialStream]
  wait := ⟨⟨[], rfl, List.isChain_nil⟩, by simp [initialStream], by simp [initialStream],
    by simp [initialStream], by simp [initialStream]⟩
  payloads := by simp [initialStream]
  count := Nat.le_refl _
  no_wild := List.not_mem_nil
  in_order := fun _ => rfl
  once := fun _ => ⟨[], rfl, List.nodup_nil, by simp⟩

/-- Distinct positions of less than `2 ^ 32` have distinct ids. -/
theorem nodup_ids {e₀ : u32} {ps : List Nat} (hnd : ps.Nodup) (hlt : ∀ p ∈ ps, p < 2 ^ 32) :
    (ps.map fun p => e₀ + BitVec.ofNat 32 p).Nodup := by
  refine (List.nodup_map_iff_inj_on hnd).mpr fun p hp q hq h => ?_
  have hnat := congrArg BitVec.toNat (add_left_cancel h)
  rw [BitVec.toNat_ofNat, BitVec.toNat_ofNat, Nat.mod_eq_of_lt (hlt p hp),
    Nat.mod_eq_of_lt (hlt q hq)] at hnat
  exact hnat

/-- **The receive queue over a whole run** in which every early arrival lies on the same side of the
wrap as the waiting ids. The stream ends at some position `E`. On an ordered stream exactly the
messages before it are processed, each once and in order; on the unordered one no position of the
stream is processed twice unless it is a fragment, so no id is before ids come round again; every
waiting id is ahead of the stream. The application gets the bytes of the data processed if none of
them were delivered out of a node. -/
theorem receive_queue (ordered : Bool) (payload : u32 → SuperOpcode × List u8) (e₀ : u32)
    (inputs : List RecvInput)
    (hside : Run.Guarded (recvStep ordered payload) SameSide (initialStream e₀) inputs) :
    let r := Run.exec (recvStep ordered payload) (initialStream e₀) inputs
    ∃ E, r.1.nextRecvExpectedId = e₀ + BitVec.ofNat 32 E ∧
      E ≤ inputs.countP RecvInput.isArrival ∧
      (ordered = true → processed r.2 = (List.range E).filterMap (callAt payload e₀)) ∧
      (ordered = false → ∃ ps : List Nat,
        nonFragIds (processed r.2) = ps.map (fun p => e₀ + BitVec.ofNat 32 p) ∧ ps.Nodup ∧
          ∀ p ∈ ps, p < E + 2 ^ 31) ∧
      (ordered = false → E ≤ 2 ^ 31 → (nonFragIds (processed r.2)).Nodup) ∧
      (∀ n ∈ r.1.wait, 0 < (n.id - r.1.nextRecvExpectedId).toInt) ∧
      .wildPointer ∉ r.2 ∧
      (Run.Guarded (recvStep ordered payload) NoReadyData (initialStream e₀) inputs →
        handed r.2 ++ r.1.delivery.queue.map (fun q => some q.2) =
          (dataOf (processed r.2)).map some) := by
  intro r
  obtain ⟨E, hE⟩ := Run.exec_inv_inputs
    (fun done s log => ∃ E, RecvInv ordered payload e₀ E done s log)
    (fun _ _ _ i ⟨_, h⟩ hok => h.step i hok) inputs [] (initialStream e₀) []
    ⟨0, RecvInv.initial ordered payload e₀⟩ hside
  simp only [List.nil_append] at hE
  have hwait : ∀ n ∈ r.1.wait, 0 < n.off r.1.nextRecvExpectedId ∧
      n.off r.1.nextRecvExpectedId < 2 ^ 31 := fun n hn =>
    hE.wait.range _ (List.mem_map_of_mem hn)
  have hcount := hE.count
  have honce : ordered = false → ∃ ps : List Nat,
      nonFragIds (processed r.2) = ps.map (fun p => e₀ + BitVec.ofNat 32 p) ∧ ps.Nodup ∧
        ∀ p ∈ ps, p < E + 2 ^ 31 := by
    intro ho
    obtain ⟨ps, hids, hnd, hps⟩ := hE.once ho
    refine ⟨ps, hids, hnd, fun p hp => ?_⟩
    rcases hps p hp with hlt | ⟨n, hn, rfl⟩
    · omega
    · exact Nat.add_lt_add_left (hwait n hn).2 E
  refine ⟨E, hE.expected, by omega, hE.in_order, honce, ?_, ?_, hE.no_wild, ?_⟩
  · intro ho hpos
    obtain ⟨ps, hids, hnd, hps⟩ := honce ho
    rw [hids]
    refine nodup_ids hnd fun p hp => ?_
    have := hps p hp
    omega
  · intro n hn
    exact (pos_toInt_iff _ _).mpr (hwait n hn)
  · intro hdata
    exact (Run.exec_inv (fun s log => Intact s.delivery log)
      (fun s l i h hok => h.step i hok) inputs (initialStream e₀) []
      ⟨by simp [initialStream], rfl⟩ hdata).contents

/-- Every id carries its low byte. -/
def lowByte (id : u32) : SuperOpcode × List u8 := (.sopData, [id.setWidth 8])

instance (s : RecvStream) : ∀ i, Decidable (SameSide s i)
  | .arrive _ => inferInstanceAs (Decidable (_ → ∀ _ ∈ s.wait, _))
  | .deliver => inferInstanceAs (Decidable True)

/-- A run with a gap, a duplicate and a late arrival. -/
theorem receive_queue_gap :
    let inputs : List RecvInput := [.arrive 5, .arrive 7, .arrive 7, .arrive 6, .arrive 5, .deliver]
    let r := Run.exec (recvStep true lowByte) (initialStream 5) inputs
    Run.Guarded (recvStep true lowByte) SameSide (initialStream 5) inputs ∧
      ∃ E, r.1.nextRecvExpectedId = 5 + BitVec.ofNat 32 E ∧
        processed r.2 = (List.range E).filterMap (callAt lowByte 5) := by
  intro inputs r
  have hside : Run.Guarded (recvStep true lowByte) SameSide (initialStream 5) inputs := by
    decide +kernel
  obtain ⟨E, hexp, -, hord, -⟩ := receive_queue true lowByte 5 inputs hside
  exact ⟨hside, E, hexp, hord rfl⟩

/-- A node is released before the application reads its bytes, and across the wrap the wait list
loses its order: the unordered stream delivers `2 ^ 32 - 1` twice. -/
theorem receive_queue_fails :
    handed (Run.exec (recvStep true lowByte) (initialStream 5) [.arrive 6, .arrive 5, .deliver]).2 =
      [some [5], none] ∧
    nonFragIds (processed (Run.exec (recvStep false lowByte) (initialStream 0xfffffffe)
      [.arrive 0, .arrive 0xffffffff, .arrive 0xfffffffe, .arrive 0xffffffff]).2) =
      [0, 0xffffffff, 0xfffffffe, 0xffffffff] := by
  decide +kernel

end Libcat.Sphynx
