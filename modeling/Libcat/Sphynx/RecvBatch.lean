import Libcat.Mem.BatchSet
import Libcat.Crypt.Tunnel

/-!
# Received batches

The loops of `Connexion::OnRecv` and of the connected part of `Client::OnRecv`. They walk a batch
through its `batch_next` pointers and push what decrypts and decompresses to a second list, through
the same pointers; afterwards the batch is released from its head.

- `reached` is what the head still leads to, and `recvLoop_spec` relates it to the loop.
- `recv_conserves_iff` says for which patterns of accepted datagrams nothing is lost.
-/

namespace Libcat.Sphynx

open Intrusive Mem

def sphynxS2cOverhead : Nat := Crypt.overheadBytes
def sphynxC2sOverhead : Nat := Crypt.overheadBytes + 2

/-- What becomes of one datagram: whether it decrypts, whether the flag byte behind the plaintext is
set, and what `LZ4_uncompress_unknownOutputSize` returns. -/
structure Datagram where
  dataBytes : Nat
  decrypts : Bool
  compressed : Bool
  compressSize : Int

/-- The datagram is delivered. -/
def Datagram.accepted (overhead : Nat) (d : Datagram) : Bool :=
  decide (overhead < d.dataBytes) && d.decrypts && (!d.compressed || decide (0 < d.compressSize))

structure RecvState (α : Type) where
  next : α → Option α
  delivery : BatchSet α
  bufferCount : Nat

section Model

variable {α : Type} [DecidableEq α] (datagram : α → Datagram)

/-- One buffer, counted and delivered if it is accepted. -/
def takeDatagram (accepted : Datagram → Bool) (s : RecvState α) (buffer : α) : RecvState α :=
  if accepted (datagram buffer) then
    let p := s.delivery.pushBack s.next buffer
    { next := p.1
      delivery := p.2
      bufferCount := s.bufferCount + 1 }
  else { s with bufferCount := s.bufferCount + 1 }

/-- The walk over the batch. The next pointer is read before the buffer is pushed. -/
def recvLoop (accepted breaks : Datagram → Bool) :
    Nat → Option α → RecvState α → Option (RecvState α)
  | _, none, s => some s
  | 0, some _, _ => none
  | fuel + 1, some buffer, s =>
    let next := s.next buffer
    if breaks (datagram buffer) then some { s with bufferCount := s.bufferCount + 1 }
    else recvLoop accepted breaks fuel next (takeDatagram datagram accepted s buffer)

/-- `Connexion::OnRecv`. -/
def Connexion.onRecv (fuel : Nat) (next : α → Option α) (buffers : BatchSet α) :
    Option (RecvState α) :=
  recvLoop datagram (Datagram.accepted sphynxC2sOverhead) (fun _ => false) fuel buffers.head
    ⟨next, BatchSet.clear, 0⟩

/-- The connected loop of `Client::OnRecv` from `node` on, with `count` buffers before it. An empty
datagram breaks off. -/
def Client.onRecv (fuel : Nat) (next : α → Option α) (node : Option α) (count : Nat) :
    Option (RecvState α) :=
  recvLoop datagram (Datagram.accepted sphynxS2cOverhead) (fun d => d.dataBytes == 0) fuel node
    ⟨next, BatchSet.clear, count⟩

end Model

/-- The list from `head`, released with `count`, is the whole batch. -/
def Conserved {α : Type} (next : α → Option α) (head : Option α) (batch : List α) (count : Nat) :
    Prop :=
  ∃ l, Seg next head l none ∧ l.Perm batch ∧ count = l.length

/-! ## What the head leads to -/

section Reached

variable {α : Type} (ok : α → Bool)

/-- The buffers up to the first one delivered, and then those delivered. -/
def reached : List α → List α
  | [] => []
  | a :: l => a :: if ok a then l.filter ok else reached l

theorem reached_sublist (l : List α) : (reached ok l).Sublist l := by
  induction l with
  | nil => exact List.Sublist.refl _
  | cons a l ih =>
    unfold reached
    split
    · exact (List.filter_sublist).cons_cons a
    · exact ih.cons_cons a

variable {ok}

theorem reached_of_none {l : List α} (h : l.filter ok = []) : reached ok l = l := by
  induction l with
  | nil => rfl
  | cons a l ih =>
    have ha : ¬ ok a = true := fun ha => by simp [ha] at h
    rw [reached, if_neg ha, ih (by simpa [ha] using h)]

/-- One more buffer that is walked over. -/
theorem reached_snoc {l : List α} (h : l.filter ok ≠ []) (v : α) :
    reached ok (l ++ [v]) = reached ok l ++ if ok v then [v] else [] := by
  induction l with
  | nil => exact absurd rfl h
  | cons a l ih =>
    rw [List.cons_append, reached, reached]
    by_cases ha : ok a = true
    · rw [if_pos ha, if_pos ha, List.filter_append, List.cons_append]
      by_cases hv : ok v = true <;> simp [hv]
    · rw [if_neg ha, if_neg ha, ih (by simpa [ha] using h), List.cons_append]

/-- It ends in the last buffer delivered. -/
theorem reached_last {l : List α} {t : α} (h : (l.filter ok).getLast? = some t) :
    ∃ m, reached ok l = m ++ [t] := by
  induction l with
  | nil => simp at h
  | cons a l ih =>
    rw [reached]
    by_cases ha : ok a = true
    · rw [List.filter_cons_of_pos ha] at h
      rw [if_pos ha]
      exact List.getLast?_eq_some_iff.mp h
    · rw [List.filter_cons_of_neg ha] at h
      obtain ⟨m, hm⟩ := ih h
      rw [if_neg ha, hm]
      exact ⟨a :: m, rfl⟩

/-- Nothing is lost if from the first accepted buffer on all are accepted. -/
theorem reached_eq_iff {l : List α} :
    reached ok l = l ↔ l.Pairwise fun a b => ok a = true → ok b = true := by
  induction l with
  | nil => simp [reached]
  | cons a l ih =>
    rw [reached, List.pairwise_cons]
    by_cases ha : ok a = true
    · rw [if_pos ha]
      simp only [List.cons.injEq, true_and, List.filter_eq_self, ha, true_implies]
      exact ⟨fun h => ⟨h, List.pairwise_iff_forall_sublist.mpr fun hs _ =>
        h _ (hs.subset (by simp))⟩, And.left⟩
    · rw [if_neg ha]
      simp only [List.cons.injEq, true_and, ih, ha]
      exact ⟨fun h => ⟨fun _ _ hf => absurd hf (by simp), h⟩, And.right⟩

/-- A list that the head leads to is the batch if it is as long. -/
theorem perm_reached_iff {l : List α} : (reached ok l).Perm l ↔ reached ok l = l :=
  ⟨fun h => (reached_sublist ok l).eq_of_length h.length_eq, fun h => by rw [h]⟩

end Reached

/-! ## The loop -/

section Loop

variable {α : Type} [DecidableEq α] {datagram : α → Datagram} {accepted breaks : Datagram → Bool}

/-- The walk has come past `done`, with `todo` to go. -/
structure LoopInv (ok : α → Bool) (head : Option α) (done todo : List α) (s : RecvState α) :
    Prop where
  delivery : s.delivery.Holds s.next (done.filter ok)
  rest : Seg s.next todo.head? todo none
  lead : Seg s.next head (reached ok done ++ if done.filter ok = [] then todo else []) none
  count : s.bufferCount = done.length

omit [DecidableEq α] in
/-- A buffer that is not delivered is walked over. -/
theorem LoopInv.skip {ok : α → Bool} {head : Option α} {done todo : List α} {v : α}
    {s : RecvState α} (h : LoopInv ok head done (v :: todo) s) (hv : ok v = false) :
    LoopInv ok head (done ++ [v]) todo { s with bufferCount := s.bufferCount + 1 } := by
  have hfilter : (done ++ [v]).filter ok = done.filter ok := by simp [hv]
  have htodo := h.rest.2
  refine ⟨by rw [hfilter]; exact h.delivery, ?_, ?_, by rw [h.count, List.length_append]; rfl⟩
  · rwa [htodo.head] at htodo
  · have hhead := h.lead
    by_cases hnone : done.filter ok = []
    · rw [if_pos hnone, reached_of_none hnone] at hhead
      rw [hfilter, if_pos hnone, reached_of_none (hfilter.trans hnone), List.append_assoc]
      exact hhead
    · rw [if_neg hnone] at hhead
      rw [hfilter, if_neg hnone, reached_snoc hnone, hv]
      simpa using hhead

/-- A buffer that is delivered ends the list from the head. -/
theorem LoopInv.push {ok : α → Bool} {head : Option α} {done todo : List α} {v : α}
    {s : RecvState α} (h : LoopInv ok head done (v :: todo) s) (hv : ok v = true)
    (hnd : (done ++ v :: todo).Nodup) :
    LoopInv ok head (done ++ [v]) todo
      { next := (s.delivery.pushBack s.next v).1
        delivery := (s.delivery.pushBack s.next v).2
        bufferCount := s.bufferCount + 1 } := by
  obtain ⟨hdone, htodo, hdisj⟩ := List.nodup_append.mp hnd
  have hvdone : v ∉ done := fun hm => hdisj v hm v (by simp) rfl
  have hvtodo : v ∉ todo := (List.nodup_cons.mp htodo).1
  have hfilter : (done ++ [v]).filter ok = done.filter ok ++ [v] := by simp [hv]
  have hvf : v ∉ done.filter ok := fun hm => hvdone (List.mem_of_mem_filter hm)
  have hrest := h.rest.2
  refine ⟨?_, ?_, ?_, by rw [h.count, List.length_append]; rfl⟩
  · rw [hfilter]
    exact h.delivery.pushBack (hdone.sublist List.filter_sublist) hvf
  · refine h.delivery.other (by rwa [hrest.head] at hrest) (fun b hb hbf => ?_) hvtodo
    exact hdisj b (List.mem_of_mem_filter hbf) b (by simp [hb]) rfl
  · rw [hfilter, if_neg (by simp), List.append_nil]
    have hhead := h.lead
    by_cases hnone : done.filter ok = []
    · rw [if_pos hnone, reached_of_none hnone] at hhead
      have hr : reached ok (done ++ [v]) = done ++ [v] := by
        rw [reached_eq_iff, List.pairwise_append]
        refine ⟨List.pairwise_iff_forall_sublist.mpr fun hs ha => ?_, by simp, fun a _ b hb _ => ?_⟩
        · exact absurd ha (List.filter_eq_nil_iff.mp hnone _ (hs.subset (by simp)))
        · rwa [List.mem_singleton.mp hb]
      -- nothing was delivered before: only the pointer of `v` is written
      have hpush : s.delivery.pushBack s.next v =
          (Function.update s.next v none, ⟨some v, some v⟩) := by
        have := h.delivery.tail
        rw [hnone] at this
        simp [BatchSet.pushBack, this]
      obtain ⟨r, h1, h2⟩ := Seg.append.mp hhead
      rw [hr, hpush]
      refine Seg.append.mpr ⟨r, h1.frame hvdone, h2.1, ?_⟩
      dsimp only
      rw [Function.update_self]
      rfl
    · rw [if_neg hnone, List.append_nil] at hhead
      rw [reached_snoc hnone, if_pos hv]
      obtain ⟨t, ht⟩ : ∃ t, (done.filter ok).getLast? = some t :=
        ⟨_, List.getLast?_eq_some_getLast hnone⟩
      have hpush : (s.delivery.pushBack s.next v).1 =
          Function.update (Function.update s.next t (some v)) v none := by
        have := h.delivery.tail
        rw [ht] at this
        simp [BatchSet.pushBack, this]
      obtain ⟨l, hl⟩ := reached_last ht
      rw [hpush, hl]
      have hsub : (l ++ [t]).Sublist done := hl ▸ reached_sublist ok done
      exact (hl ▸ hhead).snoc (hdone.sublist hsub) fun hm => hvdone (hsub.subset hm)

/-- The walk from `todo` on: to the end, or past the first datagram that breaks off. -/
theorem recvLoop_spec {ok : α → Bool} {head : Option α}
    (hbreak : ∀ d, breaks d = true → accepted d = false) (todo : List α) :
    ∀ (fuel : Nat) (done : List α) (s : RecvState α), todo.length ≤ fuel →
      LoopInv ok head done todo s → (done ++ todo).Nodup →
      (∀ a ∈ todo, ok a = accepted (datagram a)) →
      ∃ s' w t, recvLoop datagram accepted breaks fuel todo.head? s = some s' ∧ todo = w ++ t ∧
        LoopInv ok head (done ++ w) t s' ∧
        ((t = [] ∧ ∀ a ∈ w, breaks (datagram a) = false) ∨
          ∃ w' b, w = w' ++ [b] ∧ breaks (datagram b) = true ∧
            ∀ a ∈ w', breaks (datagram a) = false) := by
  induction todo with
  | nil =>
    intro fuel done s _ h _ _
    refine ⟨s, [], [], ?_, rfl, by simpa using h, .inl ⟨rfl, by simp⟩⟩
    cases fuel <;> rfl
  | cons v todo ih =>
    intro fuel done s hfuel h hnd hok
    obtain ⟨fuel, rfl⟩ : ∃ n, fuel = n + 1 := ⟨fuel - 1, by rw [List.length_cons] at hfuel; omega⟩
    have hv := hok v (by simp)
    simp only [List.head?_cons, recvLoop]
    by_cases hb : breaks (datagram v) = true
    · rw [if_pos hb]
      refine ⟨_, [v], todo, rfl, rfl, h.skip (hv.trans (hbreak _ hb)), .inr ⟨[], v, rfl, hb, ?_⟩⟩
      simp
    · rw [if_neg hb, h.rest.2.head]
      have hnd' : (done ++ [v] ++ todo).Nodup := by rwa [List.append_assoc]
      have hstep : LoopInv ok head (done ++ [v]) todo (takeDatagram datagram accepted s v) := by
        unfold takeDatagram
        rw [← hv]
        by_cases ha : ok v = true
        · rw [if_pos ha]
          exact h.push ha hnd
        · rw [if_neg ha]
          exact h.skip (by simpa using ha)
      obtain ⟨s', w, t, hrun, rfl, hinv, hend⟩ := ih fuel _ _ (by simpa using hfuel) hstep hnd'
        (fun a ha => hok a (by simp [ha]))
      refine ⟨s', v :: w, t, hrun, rfl, by simpa using hinv, ?_⟩
      rcases hend with ⟨rfl, hw⟩ | ⟨w', b, rfl, hb', hw'⟩
      · exact .inl ⟨rfl, by simpa [hb] using hw⟩
      · exact .inr ⟨v :: w', b, rfl, hb', by simpa [hb] using hw'⟩

omit [DecidableEq α] in
/-- The batch is released as a whole if the walk came to its end and lost nothing. -/
theorem LoopInv.conserved_iff {ok : α → Bool} {head : Option α} {done todo : List α}
    {s : RecvState α} (h : LoopInv ok head done todo s) :
    Conserved s.next head (done ++ todo) s.bufferCount ↔
      todo = [] ∧ done.Pairwise fun a b => ok a = true → ok b = true := by
  rw [← reached_eq_iff]
  constructor
  · rintro ⟨l, hl, hperm, hcount⟩
    obtain rfl := h.lead.unique hl
    have htodo : todo = [] := by
      have := hperm.length_eq
      rw [← hcount, h.count, List.length_append] at this
      exact List.length_eq_zero_iff.mp (by omega)
    subst htodo
    refine ⟨rfl, perm_reached_iff.mp ?_⟩
    simpa using hperm
  · rintro ⟨rfl, heq⟩
    have hlead := h.lead
    rw [heq] at hlead
    refine ⟨done, by simpa using hlead, by simp, h.count⟩

/-- Accepted datagrams come last, and one that breaks off comes last of all. -/
def AcceptedLast (accepted breaks : Datagram → Bool) (datagram : α → Datagram) (rest : List α) :
    Prop :=
  rest.Pairwise fun a b => breaks (datagram a) = false ∧
    (accepted (datagram a) = true → accepted (datagram b) = true)

/-- A walk that starts in the middle of a batch, where nothing has been delivered. -/
theorem recvLoop_conserves_iff (hbreak : ∀ d, breaks d = true → accepted d = false)
    {next : α → Option α} {head : Option α} {pre rest : List α} {fuel : Nat}
    (hbatch : Seg next head (pre ++ rest) none) (hnd : (pre ++ rest).Nodup)
    (hfuel : rest.length ≤ fuel) :
    (∃ s, recvLoop datagram accepted breaks fuel rest.head? ⟨next, BatchSet.clear, pre.length⟩ =
        some s ∧ Conserved s.next head (pre ++ rest) s.bufferCount) ↔
      AcceptedLast accepted breaks datagram rest := by
  classical
  -- the buffers before the walk count as not delivered
  set ok : α → Bool := fun a => decide (a ∈ rest) && accepted (datagram a) with hokdef
  have hrest : ∀ a ∈ rest, ok a = accepted (datagram a) := fun a ha => by simp [hokdef, ha]
  have hpre : ∀ a ∈ pre, ok a = false := fun a ha => by
    have : a ∉ rest := fun hr => (List.nodup_append.mp hnd).2.2 a ha a hr rfl
    simp [hokdef, this]
  have hfilter : pre.filter ok = [] := List.filter_eq_nil_iff.mpr fun a ha => by simp [hpre a ha]
  have hstart : LoopInv ok head pre rest ⟨next, BatchSet.clear, pre.length⟩ := by
    refine ⟨?_, ?_, ?_, rfl⟩
    · rw [hfilter]
      exact BatchSet.holds_clear next
    · obtain ⟨r, -, h2⟩ := Seg.append.mp hbatch
      rwa [h2.head] at h2
    · rw [if_pos hfilter, reached_of_none hfilter]
      exact hbatch
  obtain ⟨s', w, t, hrun, rfl, hinv, hend⟩ :=
    recvLoop_spec hbreak rest fuel pre _ hfuel hstart hnd hrest
  have hcons := hinv.conserved_iff
  rw [List.append_assoc] at hcons
  have hexists : (∃ s, recvLoop datagram accepted breaks fuel (w ++ t).head?
      ⟨next, BatchSet.clear, pre.length⟩ = some s ∧
        Conserved s.next head (pre ++ (w ++ t)) s.bufferCount) ↔
      Conserved s'.next head (pre ++ (w ++ t)) s'.bufferCount := by
    rw [hrun]
    simp
  have hpair : (pre ++ w).Pairwise (fun a b => ok a = true → ok b = true) ↔
      w.Pairwise fun a b => accepted (datagram a) = true → accepted (datagram b) = true := by
    rw [List.pairwise_append]
    have hp : pre.Pairwise fun a b => ok a = true → ok b = true :=
      List.pairwise_iff_forall_sublist.mpr fun hs ha =>
        absurd ha (by simp [hpre _ (hs.subset (List.mem_cons_self))])
    have hpw : ∀ a ∈ pre, ∀ b ∈ w, ok a = true → ok b = true := fun a ha _ _ h =>
      absurd h (by simp [hpre a ha])
    have hw : w.Pairwise (fun a b => ok a = true → ok b = true) ↔
        w.Pairwise fun a b => accepted (datagram a) = true → accepted (datagram b) = true :=
      List.Pairwise.iff_of_mem fun {a b} ha hb => by
        rw [hrest a (by simp [ha]), hrest b (by simp [hb])]
    exact ⟨fun h => hw.mp h.2.1, fun h => ⟨hp, hw.mpr h, hpw⟩⟩
  rw [hexists, hcons, hpair, AcceptedLast]
  rcases hend with ⟨rfl, hw⟩ | ⟨w', b, rfl, hb, hw'⟩
  · rw [List.append_nil]
    simp only [true_and]
    exact List.Pairwise.iff_of_mem fun {a b} ha _ => by simp [hw a ha]
  · constructor
    · rintro ⟨rfl, h⟩
      rw [List.append_nil]
      obtain ⟨h1, -, h3⟩ := List.pairwise_append.mp h
      refine List.pairwise_append.mpr ⟨?_, by simp, fun a ha c hc => ⟨hw' a ha, h3 a ha c hc⟩⟩
      exact h1.imp_of_mem fun {a c} ha _ hac => ⟨hw' a ha, hac⟩
    · intro h
      have ht : t = [] := by
        cases t with
        | nil => rfl
        | cons c t =>
          have := ((List.pairwise_append.mp h).2.2 b (by simp) c (by simp)).1
          rw [hb] at this
          exact absurd this (by simp)
      subst ht
      rw [List.append_nil] at h
      exact ⟨rfl, h.imp And.right⟩

end Loop

/-! ## The result -/

/-- A datagram that is accepted is not empty. -/
theorem not_accepted_of_empty (d : Datagram) (h : (d.dataBytes == 0) = true) :
    d.accepted sphynxS2cOverhead = false := by
  have : d.dataBytes = 0 := by simpa using h
  simp [Datagram.accepted, this]

/-- **Buffer conservation.** A batch is released as a whole by `Connexion::OnRecv` exactly if no
datagram that is not accepted follows an accepted one. For the connected loop of the client moreover
an empty datagram, which breaks the loop off, is the last of the batch. -/
theorem recv_conserves_iff {α : Type} [DecidableEq α] (datagram : α → Datagram)
    (next : α → Option α) (buffers : BatchSet α) (pre rest : List α) (fuel : Nat)
    (hbatch : buffers.Holds next (pre ++ rest)) (hnd : (pre ++ rest).Nodup)
    (hfuel : (pre ++ rest).length ≤ fuel) :
    ((∃ s, Connexion.onRecv datagram fuel next buffers = some s ∧
        Conserved s.next buffers.head (pre ++ rest) s.bufferCount) ↔
      AcceptedLast (Datagram.accepted sphynxC2sOverhead) (fun _ => false) datagram (pre ++ rest)) ∧
    ((∃ s, Client.onRecv datagram fuel next rest.head? pre.length = some s ∧
        Conserved s.next buffers.head (pre ++ rest) s.bufferCount) ↔
      AcceptedLast (Datagram.accepted sphynxS2cOverhead) (fun d => d.dataBytes == 0) datagram
        rest) := by
  constructor
  · have := @recvLoop_conserves_iff _ _ datagram (Datagram.accepted sphynxC2sOverhead)
      (fun _ => false) (by simp) _ _ [] (pre ++ rest) _ hbatch.seg hnd hfuel
    rw [← hbatch.seg.head] at this
    exact this
  · rw [List.length_append] at hfuel
    exact recvLoop_conserves_iff not_accepted_of_empty hbatch.seg hnd (by omega)

/-- A full datagram that decrypts or does not. -/
def plainDatagram (decrypts : Bool) : Datagram := ⟨100, decrypts, false, 0⟩

/-- The pointers of a batch of the two buffers `false` and `true`. -/
def twoBuffers : Bool → Option Bool
  | false => some true
  | true => none

/-- One that does not decrypt before one that does. -/
theorem recv_conserves_two :
    (∃ s, Connexion.onRecv plainDatagram 2 twoBuffers ⟨some false, some true⟩ = some s ∧
        Conserved s.next (some false) [false, true] s.bufferCount) ∧
    ∃ s, Client.onRecv plainDatagram 2 twoBuffers (some false) 0 = some s ∧
        Conserved s.next (some false) [false, true] s.bufferCount := by
  have h := recv_conserves_iff plainDatagram twoBuffers ⟨some false, some true⟩ [] [false, true] 2
    ⟨⟨rfl, rfl, rfl⟩, rfl⟩ (by decide) (by decide)
  exact ⟨h.1.mpr (by simp [AcceptedLast, plainDatagram, Datagram.accepted]),
    h.2.mpr (by simp [AcceptedLast, plainDatagram, Datagram.accepted])⟩

/-- The other way round the second one is lost. -/
theorem not_recv_conserves_two :
    (¬ ∃ s, Connexion.onRecv (fun b => plainDatagram (!b)) 2 twoBuffers ⟨some false, some true⟩ =
        some s ∧ Conserved s.next (some false) [false, true] s.bufferCount) ∧
    ¬ ∃ s, Client.onRecv (fun b => plainDatagram (!b)) 2 twoBuffers (some false) 0 = some s ∧
        Conserved s.next (some false) [false, true] s.bufferCount := by
  have hbatch : Seg twoBuffers (some false) ([] ++ [false, true]) none := ⟨rfl, rfl, rfl⟩
  constructor
  · intro h
    have := (recvLoop_conserves_iff (by simp) hbatch (by decide) (by decide)).mp h
    revert this
    simp [AcceptedLast, plainDatagram, Datagram.accepted, sphynxC2sOverhead, Crypt.overheadBytes,
      Crypt.ivBytes, Crypt.macBytes]
  · intro h
    have := (recvLoop_conserves_iff not_accepted_of_empty hbatch (by decide) (by decide)).mp h
    revert this
    simp [AcceptedLast, plainDatagram, Datagram.accepted, sphynxS2cOverhead, Crypt.overheadBytes,
      Crypt.ivBytes, Crypt.macBytes]

end Libcat.Sphynx
