import Libcat.Sphynx.Common

/-!
# The out-of-order wait list

The nodes of `_recv_wait[stream]` in `next` order, each with the address it lives at and its `eos`
pointer, which may be unset. The first node of a sequence of consecutive ids points to the last
one, so that `StoreReliableOutOfOrder` and `WriteACK` step from sequence to sequence; a pointer
that leads nowhere gives `none`.

`Run` is such a sequence with its pointer, and a list of runs is `Separated` when something is
missing between any two neighbours. `search_spec` and `link_spec` are what an insertion does to it.
-/

namespace Libcat.Sphynx

open Serial

structure RecvNode where
  addr : Nat
  eos : Option Nat
  id : u32
  sop : SuperOpcode
  data : List u8
deriving DecidableEq

/-- Follow a pointer into the list: what is before the node, the node, and what is behind it. -/
def splitAtAddr (a : Nat) : List RecvNode → Option (List RecvNode × RecvNode × List RecvNode)
  | [] => none
  | n :: rest =>
    if n.addr = a then some ([], n, rest)
    else (splitAtAddr a rest).map fun r => (n :: r.1, r.2)

inductive Search where
  | insert (before : List RecvNode) (prevSeq prev : Option RecvNode) (next : List RecvNode)
  | duplicate
  | dropped

/-- The search for the insertion point, with `loops` more steps allowed after this one. -/
def search (ackId : u32) : Nat → List RecvNode → Option RecvNode → Option RecvNode →
    List RecvNode → Option Search
  | _, before, prevSeq, prev, [] => some (.insert before prevSeq prev [])
  | loops, before, prevSeq, prev, next :: rest =>
    if ackId < next.id then some (.insert before prevSeq prev (next :: rest))
    else
      match next.eos.bind fun a => splitAtAddr a (next :: rest) with
      | none => none
      | some (seq, eos, after) =>
        if ackId ≤ eos.id then some .duplicate
        else
          match loops with
          | 0 => some .dropped
          | loops + 1 => search ackId loops (before ++ seq ++ [eos]) (some next) (some eos) after

def setEos (addr : Nat) (eos : Option Nat) (nodes : List RecvNode) : List RecvNode :=
  nodes.map fun n => if n.addr = addr then { n with eos := eos } else n

/-- Where the sequence of a new node ends: with the sequence that `next` starts if the new node
comes right before it, with itself otherwise. -/
def linkEos (new : RecvNode) : List RecvNode → Option Nat
  | [] => some new.addr
  | n :: _ => if new.id + 1 = n.id then n.eos else some new.addr

/-- Link a new node into the list and into its sequence. The `eos` of a node that follows its
predecessor in a sequence stays unset. -/
def link (new : RecvNode) (before : List RecvNode) (prevSeq prev : Option RecvNode)
    (next : List RecvNode) : List RecvNode :=
  match prevSeq, prev with
  | some q, some p =>
    if p.id + 1 = new.id then setEos q.addr (linkEos new next) before ++ new :: next
    else before ++ { new with eos := linkEos new next } :: next
  | _, _ => before ++ { new with eos := linkEos new next } :: next

/-! ## Runs -/

/-- A sequence of consecutive ids, its first node pointing to its last one. -/
structure Run where
  head : RecvNode
  tail : List RecvNode
  chain : List.IsChain (fun a b : u32 => b = a + 1) ((head :: tail).map RecvNode.id)
  eos : head.eos = some ((head :: tail).getLast (List.cons_ne_nil _ _)).addr

namespace Run

def nodes (r : Run) : List RecvNode := r.head :: r.tail

def last (r : Run) : RecvNode := (r.head :: r.tail).getLast (List.cons_ne_nil _ _)

theorem nodes_eq_dropLast (r : Run) : r.nodes = r.nodes.dropLast ++ [r.last] :=
  (List.dropLast_append_getLast (List.cons_ne_nil _ _)).symm

theorem head_mem (r : Run) : r.head ∈ r.nodes := List.mem_cons_self

end Run

/-- The nodes of the runs, in order. -/
def flat (runs : List Run) : List RecvNode := runs.flatMap Run.nodes

@[simp] theorem flat_nil : flat [] = [] := rfl

@[simp] theorem flat_cons (r : Run) (rs : List Run) : flat (r :: rs) = r.nodes ++ flat rs := by
  simp [flat]

@[simp] theorem flat_append (rs qs : List Run) : flat (rs ++ qs) = flat rs ++ flat qs := by
  simp [flat]

/-- Following a pointer in a list whose addresses are all different. -/
theorem splitAtAddr_eq {before after : List RecvNode} {n : RecvNode}
    (hnd : ((before ++ n :: after).map RecvNode.addr).Nodup) :
    splitAtAddr n.addr (before ++ n :: after) = some (before, n, after) := by
  induction before with
  | nil => simp [splitAtAddr]
  | cons b before ih =>
    have hne : b.addr ≠ n.addr := by
      intro h
      simp only [List.cons_append, List.map_cons, List.nodup_cons] at hnd
      exact hnd.1 (by rw [h]; simp)
    simp only [List.cons_append, List.map_cons, List.nodup_cons] at hnd
    rw [List.cons_append, splitAtAddr, if_neg hne, ih hnd.2]
    rfl

/-- The `eos` pointer of a run leads to its last node. -/
theorem Run.split (r : Run) (after : List RecvNode)
    (hnd : ((r.nodes ++ after).map RecvNode.addr).Nodup) :
    (r.head.eos.bind fun a => splitAtAddr a (r.nodes ++ after)) =
      some (r.nodes.dropLast, r.last, after) := by
  rw [r.eos]
  have e : r.nodes ++ after = r.nodes.dropLast ++ r.last :: after := by
    conv_lhs => rw [r.nodes_eq_dropLast]
    simp
  rw [e] at hnd
  rw [Option.bind_some, e]
  exact splitAtAddr_eq hnd

/-- In a run every id between the first and the last one is there. -/
theorem mem_of_consecutive {x : u32} : ∀ (tail : List RecvNode) (head : RecvNode),
    List.IsChain (fun a b : u32 => b = a + 1) ((head :: tail).map RecvNode.id) →
    (head :: tail).Pairwise (fun a b => a.id < b.id) → head.id ≤ x →
    x ≤ ((head :: tail).getLast (List.cons_ne_nil _ _)).id → ∃ n ∈ head :: tail, n.id = x := by
  intro tail
  induction tail with
  | nil =>
    intro head _ _ h1 h2
    exact ⟨head, by simp, BitVec.le_antisymm h1 (by simpa using h2)⟩
  | cons n tail ih =>
    intro head hchain hinc h1 h2
    obtain ⟨hn, hchain⟩ := List.isChain_cons_cons.mp hchain
    have hlt := (List.pairwise_cons.mp hinc).1 n (by simp)
    by_cases hx : head.id = x
    · exact ⟨head, by simp, hx⟩
    · obtain ⟨m, hm, hmx⟩ := ih n hchain (List.pairwise_cons.mp hinc).2
        (by rw [hn] at hlt ⊢; bv_omega) (by simpa [List.getLast_cons] using h2)
      exact ⟨m, by simp [hm], hmx⟩

/-- Where the search stands after the runs `done`. -/
def prevSeqOf (done : List Run) : Option RecvNode := done.getLast?.map Run.head

def prevOf (done : List Run) : Option RecvNode := done.getLast?.map Run.last

/-- What the search finds in a list in ascending order. -/
theorem search_spec (x : u32) (todo : List Run) :
    ∀ (loops : Nat) (done : List Run),
      ((flat (done ++ todo)).map RecvNode.addr).Nodup →
      (flat todo).Pairwise (fun a b => a.id < b.id) → (∀ n ∈ flat done, n.id < x) →
      match search x loops (flat done) (prevSeqOf done) (prevOf done) (flat todo) with
      | none => False
      | some .dropped => True
      | some .duplicate => ∃ n ∈ flat todo, n.id = x
      | some (.insert before prevSeq prev next) =>
        ∃ done' todo', done ++ todo = done' ++ todo' ∧ before = flat done' ∧ next = flat todo' ∧
          prevSeq = prevSeqOf done' ∧ prev = prevOf done' ∧ (∀ n ∈ flat done', n.id < x) ∧
          ∀ n ∈ flat todo', x < n.id := by
  induction todo with
  | nil =>
    intro loops done _ _ hlt
    simp only [flat_nil, search]
    exact ⟨done, [], rfl, rfl, rfl, rfl, rfl, hlt, by simp⟩
  | cons r todo ih =>
    intro loops done hnd hinc hlt
    have hinc' := hinc
    rw [flat_cons, List.pairwise_append] at hinc
    have hshape : flat (r :: todo) = r.head :: (r.tail ++ flat todo) := by simp [Run.nodes]
    have hsplit : (r.head.eos.bind fun a => splitAtAddr a (r.head :: (r.tail ++ flat todo))) =
        some (r.nodes.dropLast, r.last, flat todo) := by
      rw [flat_append, flat_cons, List.map_append, List.nodup_append] at hnd
      exact r.split (flat todo) hnd.2.1
    rw [hshape, search]
    by_cases hx : x < r.head.id
    · rw [if_pos hx]
      refine ⟨done, r :: todo, rfl, rfl, by simp [Run.nodes], rfl, rfl, hlt, ?_⟩
      intro n hn
      rw [hshape] at hn hinc'
      rcases List.mem_cons.mp hn with rfl | hn
      · exact hx
      · exact BitVec.lt_trans hx ((List.pairwise_cons.mp hinc').1 n hn)
    rw [if_neg hx, hsplit]
    simp only
    by_cases hle : x ≤ r.last.id
    · rw [if_pos hle]
      obtain ⟨n, hn, hnx⟩ := mem_of_consecutive r.tail r.head r.chain hinc.1 (BitVec.not_lt.mp hx) hle
      exact ⟨n, by rw [← List.cons_append]; exact List.mem_append_left _ hn, hnx⟩
    rw [if_neg hle]
    cases loops with
    | zero => trivial
    | succ loops =>
      have hflat : flat done ++ r.nodes.dropLast ++ [r.last] = flat (done ++ [r]) := by
        rw [List.append_assoc, ← r.nodes_eq_dropLast]; simp
      have hseq : some r.head = prevSeqOf (done ++ [r]) := by simp [prevSeqOf]
      have hprev : some r.last = prevOf (done ++ [r]) := by simp [prevOf]
      simp only [hflat, hseq, hprev]
      have := ih loops (done ++ [r]) (by simpa using hnd) hinc.2.1 (by
        intro n hn
        rw [flat_append, List.mem_append] at hn
        rcases hn with hn | hn
        · exact hlt n hn
        · have hmem : n ∈ r.nodes := by simpa using hn
          have hlast : n.id ≤ r.last.id := by
            have hp := hinc.1
            rw [r.nodes_eq_dropLast] at hp hmem
            rcases List.mem_append.mp hmem with hm | hm
            · exact BitVec.le_of_lt ((List.pairwise_append.mp hp).2.2 n hm r.last (by simp))
            · rw [List.mem_singleton.mp hm]; exact BitVec.le_refl _
          have := BitVec.not_le.mp hle
          bv_omega)
      generalize search x loops (flat (done ++ [r])) (prevSeqOf (done ++ [r]))
        (prevOf (done ++ [r])) (flat todo) = res at this ⊢
      rcases res with _ | ⟨before, ps, pv, next⟩ | _ | _
      · exact this
      · simpa using this
      · obtain ⟨n, hn, hnx⟩ := this
        exact ⟨n, by simp [hn], hnx⟩
      · trivial

/-- No two neighbouring runs could be one. -/
def Separated (runs : List Run) : Prop :=
  runs.IsChain fun r q => r.last.id + 1 ≠ q.head.id

namespace Run

variable (r q : Run) (new : RecvNode)

theorem getLast_ids : (r.head :: r.tail).map RecvNode.id = (r.nodes.dropLast).map RecvNode.id ++
    [r.last.id] := by
  rw [← List.map_singleton, ← List.map_append]
  exact congrArg _ r.nodes_eq_dropLast

/-- The chain of a run with more ids behind it. -/
theorem chain_append {ids : List u32} (h : ids.IsChain fun a b => b = a + 1)
    (hnext : ∀ y ∈ ids.head?, y = r.last.id + 1) :
    List.IsChain (fun a b : u32 => b = a + 1) ((r.head :: r.tail).map RecvNode.id ++ ids) := by
  refine List.isChain_append.mpr ⟨r.chain, h, ?_⟩
  intro x hx y hy
  rw [getLast_ids, List.getLast?_append, List.getLast?_singleton] at hx
  obtain rfl : r.last.id = x := by simpa using hx
  exact hnext y hy

/-- A new node behind a run. -/
def extend (h : new.id = r.last.id + 1) : Run where
  head := { r.head with eos := some new.addr }
  tail := r.tail ++ [new]
  chain := by
    have := r.chain_append (List.isChain_singleton _) (by simpa using h)
    simpa using this
  eos := by simp

/-- A new node in front of a run. -/
def prepend (h : q.head.id = new.id + 1) : Run where
  head := { new with eos := q.head.eos }
  tail := q.nodes
  chain := by
    have hq : List.IsChain (fun a b : u32 => b = a + 1) (new.id :: (q.nodes.map RecvNode.id)) :=
      List.isChain_cons_cons.mpr ⟨h, q.chain⟩
    simpa [nodes] using hq
  eos := by
    rw [List.getLast_cons (by simp [nodes])]
    exact q.eos

/-- A new node that joins two runs. -/
def join (h : new.id = r.last.id + 1) (h' : q.head.id = new.id + 1) : Run where
  head := { r.head with eos := q.head.eos }
  tail := r.tail ++ new :: q.nodes
  chain := by
    have hq : List.IsChain (fun a b : u32 => b = a + 1) (new.id :: (q.nodes.map RecvNode.id)) :=
      List.isChain_cons_cons.mpr ⟨h', q.chain⟩
    have := r.chain_append hq (by simpa using h)
    simpa using this
  eos := by
    have e : (({ r.head with eos := q.head.eos } : RecvNode) :: (r.tail ++ new :: q.nodes)).getLast
        (List.cons_ne_nil _ _) = q.last := by
      simp [List.getLast_cons, nodes, last]
    rw [e]
    exact q.eos

/-- A new node on its own. -/
def single : Run where
  head := { new with eos := some new.addr }
  tail := []
  chain := List.isChain_singleton _
  eos := rfl

@[simp] theorem last_extend (h : new.id = r.last.id + 1) : (r.extend new h).last = new := by
  simp [extend, last]

@[simp] theorem last_prepend (h : q.head.id = new.id + 1) :
    (prepend q new h).last = q.last := by
  simp [prepend, last, nodes]

@[simp] theorem last_join (h : new.id = r.last.id + 1) (h' : q.head.id = new.id + 1) :
    (join r q new h h').last = q.last := by
  simp [join, last, nodes]

end Run

/-- A node without its pointer. -/
def RecvNode.erase (n : RecvNode) : RecvNode := { n with eos := none }

theorem RecvNode.id_eq {n m : RecvNode} (h : n.erase = m.erase) : n.id = m.id :=
  show n.erase.id = m.erase.id by rw [h]

theorem RecvNode.addr_eq {n m : RecvNode} (h : n.erase = m.erase) : n.addr = m.addr :=
  show n.erase.addr = m.erase.addr by rw [h]

theorem setEos_of_not_mem {addr : Nat} {v : Option Nat} {nodes : List RecvNode}
    (h : addr ∉ nodes.map RecvNode.addr) : setEos addr v nodes = nodes := by
  induction nodes with
  | nil => rfl
  | cons n nodes ih =>
    simp only [List.map_cons, List.mem_cons, not_or] at h
    rw [setEos, List.map_cons, if_neg (Ne.symm h.1)]
    exact congrArg _ (ih h.2)

/-- Setting the pointer of the last run's first node. -/
theorem setEos_flat {done : List Run} {r : Run} {v : Option Nat}
    (hnd : ((flat (done ++ [r])).map RecvNode.addr).Nodup) :
    setEos r.head.addr v (flat (done ++ [r])) = flat done ++ { r.head with eos := v } :: r.tail := by
  rw [flat_append, flat_cons, flat_nil, List.append_nil, List.map_append, List.nodup_append] at hnd
  obtain ⟨-, hr, hdis⟩ := hnd
  have h1 : r.head.addr ∉ (flat done).map RecvNode.addr := fun h =>
    hdis _ h _ (List.mem_map_of_mem r.head_mem) rfl
  have h2 : r.head.addr ∉ r.tail.map RecvNode.addr := (List.nodup_cons.mp hr).1
  have hd : setEos r.head.addr v (flat done) = flat done := setEos_of_not_mem h1
  have ht : setEos r.head.addr v r.tail = r.tail := setEos_of_not_mem h2
  rw [flat_append, flat_cons, flat_nil, List.append_nil, Run.nodes, setEos, List.map_append,
    List.map_cons, if_pos rfl]
  exact congrArg₂ _ hd (congrArg _ ht)

theorem Separated.append {rs qs : List Run} (hr : Separated rs) (hq : Separated qs)
    (h : ∀ r ∈ rs.getLast?, ∀ q ∈ qs.head?, r.last.id + 1 ≠ q.head.id) : Separated (rs ++ qs) :=
  List.isChain_append.mpr ⟨hr, hq, h⟩

theorem linkEos_adjacent {new : RecvNode} {q : Run} {todo : List Run}
    (h : new.id + 1 = q.head.id) : linkEos new (flat (q :: todo)) = q.head.eos := by
  rw [flat_cons, Run.nodes, List.cons_append, linkEos, if_pos h]

theorem linkEos_apart {new : RecvNode} {todo : List Run}
    (h : ∀ q ∈ todo.head?, new.id + 1 ≠ q.head.id) : linkEos new (flat todo) = some new.addr := by
  cases todo with
  | nil => rfl
  | cons q todo => rw [flat_cons, Run.nodes, List.cons_append, linkEos, if_neg (h q (by simp))]

/-- The runs from a new node on that does not follow its predecessor. -/
theorem link_apart {new : RecvNode} {todo : List Run} (hsep : Separated todo) :
    ∃ r rest, { new with eos := linkEos new (flat todo) } :: flat todo = flat (r :: rest) ∧
      Separated (r :: rest) ∧ r.head.id = new.id := by
  by_cases h : ∃ q rest, todo = q :: rest ∧ new.id + 1 = q.head.id
  · obtain ⟨q, rest, rfl, h⟩ := h
    obtain ⟨hq, hrest⟩ := List.isChain_cons.mp hsep
    refine ⟨Run.prepend q new h.symm, rest, ?_, ?_, rfl⟩
    · rw [linkEos_adjacent h, flat_cons, flat_cons]
      rfl
    · exact List.isChain_cons.mpr ⟨by simpa using hq, hrest⟩
  · have hne : ∀ q ∈ todo.head?, new.id + 1 ≠ q.head.id := by
      intro q hq he
      cases todo with
      | nil => cases hq
      | cons q' rest =>
        obtain rfl : q' = q := by simpa using hq
        exact h ⟨q', rest, rfl, he⟩
    refine ⟨Run.single new, todo, ?_, ?_, rfl⟩
    · rw [linkEos_apart hne, flat_cons]
      rfl
    · exact List.isChain_cons.mpr ⟨hne, hsep⟩

/-- The runs from `r` on, with a new node behind it. -/
theorem link_behind {new : RecvNode} {r : Run} {todo : List Run} (hsep : Separated todo)
    (h : r.last.id + 1 = new.id) :
    ∃ r' rest, { r.head with eos := linkEos new (flat todo) } :: (r.tail ++ new :: flat todo) =
      flat (r' :: rest) ∧ Separated (r' :: rest) ∧ r'.head.id = r.head.id := by
  by_cases hq : ∃ q rest, todo = q :: rest ∧ new.id + 1 = q.head.id
  · obtain ⟨q, rest, rfl, hq⟩ := hq
    obtain ⟨hq', hrest⟩ := List.isChain_cons.mp hsep
    refine ⟨Run.join r q new h.symm hq.symm, rest, ?_, ?_, rfl⟩
    · rw [linkEos_adjacent hq, flat_cons, flat_cons]
      simp [Run.join, Run.nodes]
    · exact List.isChain_cons.mpr ⟨by simpa using hq', hrest⟩
  · have hne : ∀ q ∈ todo.head?, new.id + 1 ≠ q.head.id := by
      intro q hq' he
      cases todo with
      | nil => cases hq'
      | cons q' rest =>
        obtain rfl : q' = q := by simpa using hq'
        exact hq ⟨q', rest, rfl, he⟩
    refine ⟨r.extend new h.symm, todo, ?_, ?_, rfl⟩
    · rw [linkEos_apart hne, flat_cons]
      simp [Run.extend, Run.nodes]
    · exact List.isChain_cons.mpr ⟨by simpa using hne, hsep⟩

/-- A new node between two runs, or at an end of the list. -/
theorem link_spec {new : RecvNode} {done todo : List Run} (hsep : Separated (done ++ todo))
    (hnd : ((flat done).map RecvNode.addr).Nodup) :
    ∃ runs, link new (flat done) (prevSeqOf done) (prevOf done) (flat todo) = flat runs ∧
      Separated runs := by
  obtain ⟨hsd, hst, hbetween⟩ := List.isChain_append.mp hsep
  rcases List.eq_nil_or_concat done with rfl | ⟨done, r, rfl⟩
  · obtain ⟨r, rest, hflat, hsep', -⟩ := link_apart hst
    exact ⟨r :: rest, hflat, hsep'⟩
  · rw [List.concat_eq_append] at *
    have hps : prevSeqOf (done ++ [r]) = some r.head := by simp [prevSeqOf]
    have hpv : prevOf (done ++ [r]) = some r.last := by simp [prevOf]
    obtain ⟨hsd', -, hdr⟩ := List.isChain_append.mp hsd
    rw [hps, hpv, link]
    by_cases hp : r.last.id + 1 = new.id
    · obtain ⟨r', rest, hflat, hsep', hid⟩ := link_behind (r := r) hst hp
      refine ⟨done ++ r' :: rest, ?_, ?_⟩
      · rw [if_pos hp, setEos_flat hnd, flat_append, ← hflat]
        simp
      · refine Separated.append hsd' hsep' fun x hx y hy => ?_
        obtain rfl : r' = y := by simpa using hy
        rw [hid]
        exact hdr x hx r (by simp)
    · obtain ⟨r', rest, hflat, hsep', hid⟩ := link_apart hst
      refine ⟨(done ++ [r]) ++ r' :: rest, ?_, ?_⟩
      · rw [if_neg hp, flat_append (done ++ [r]), ← hflat]
      · refine Separated.append hsd hsep' fun x hx y hy => ?_
        obtain rfl : r' = y := by simpa using hy
        obtain rfl : r = x := by simpa using hx
        rw [hid]
        exact hp

/-- Linking changes nothing but pointers, apart from the new node. -/
theorem erase_link (new : RecvNode) (before : List RecvNode) (prevSeq prev : Option RecvNode)
    (next : List RecvNode) :
    (link new before prevSeq prev next).map RecvNode.erase =
      (before ++ new :: next).map RecvNode.erase := by
  have hset : ∀ a v, (setEos a v before).map RecvNode.erase = before.map RecvNode.erase := by
    intro a v
    rw [setEos, List.map_map]
    refine List.map_congr_left fun n _ => ?_
    simp only [Function.comp_apply, RecvNode.erase]
    split <;> rfl
  have hnew : ∀ v, RecvNode.erase { new with eos := v } = new.erase := fun _ => rfl
  unfold link
  split
  · split
    · rw [List.map_append, hset, List.map_append]
    · simp only [List.map_append, List.map_cons, hnew]
  · simp only [List.map_append, List.map_cons, hnew]

end Libcat.Sphynx
