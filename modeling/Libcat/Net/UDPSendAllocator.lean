import Libcat.Math.BitMath
import Libcat.Mem.BatchSet

/-!
# The bins of the send buffers

`UDPSendAllocator` keeps buffers of a few sizes in bins. A request is rounded up to the size of a bin,
and a batch with buffers of any bins is given back in runs of one bin, while the buffers of no bin are
deleted.

- `bin_fits`: the two roundings go together.
- `releaseBatch_spec`: what arrives in the bins.

The size of a `SendBuffer` depends on the platform and is a parameter. `OnInitialize` enforces that it is
less than `REUSE_MINIMUM_SIZE`.
-/

namespace Libcat.Net.UDPSendAllocator

open Intrusive Mem

section Model

def minAllocCount : u32 := 2
def maxAllocCount : u32 := 255
def reuseMinimumSize : u32 := 256
def iothreadsBufferReadBytes : u32 := 1450

/-- `MAX_BYTES`, with `sizeof(SendBuffer)`. -/
def maxBytes (sendBufferBytes : u32) : u32 := sendBufferBytes + iothreadsBufferReadBytes

/-- The size of the buffers of bin `ii`, as `OnInitialize` makes it. -/
def bufferBytes (sendBufferBytes numAllocators ii : u32) : u32 :=
  reuseMinimumSize + ii * (maxBytes sendBufferBytes - reuseMinimumSize) / (numAllocators - 1)

/-- The bin that `Acquire` determines. -/
def binIndex (sendBufferBytes numAllocators bytes : u32) : u32 :=
  ((bytes - reuseMinimumSize) * (numAllocators - 1) +
    (maxBytes sendBufferBytes - reuseMinimumSize - 1)) / (maxBytes sendBufferBytes - reuseMinimumSize)

/-- `Acquire` of `buffer_bytes`: what it remembers in the buffer, and the size of the buffer. -/
def acquire (sendBufferBytes numAllocators bytes : u32) : u8 × u32 :=
  if bytes < reuseMinimumSize then (0, bytes)
  else
    let bin := binIndex sendBufferBytes numAllocators bytes
    ((bin + 1).setWidth 8, bufferBytes sendBufferBytes numAllocators bin)

variable {α : Type} [DecidableEq α]

/-- The pointers, the release lists of the bins, and the buffers that were deleted. -/
structure Memory (α : Type) where
  next : α → Option α
  releaseHead : Nat → Option α
  deleted : List α

/-- The locals of `ReleaseBatch`. -/
structure Kills (α : Type) where
  kills : BatchSet α
  prevBin : Nat

/-- `_allocators[bin]->ReleaseBatch(kills)`. -/
def Memory.release (m : Memory α) (bin : Nat) (kills : BatchSet α) : Memory α :=
  let r := kills.release m.next (m.releaseHead bin)
  { m with next := r.1, releaseHead := Function.update m.releaseHead bin r.2 }

/-- `delete []pkt`; the memory may be anything afterwards. -/
def Memory.delete (m : Memory α) (junk : α → Option α) (node : α) : Memory α :=
  { m with next := Function.update m.next node (junk node), deleted := m.deleted ++ [node] }

/-- If previous bin is non-zero. -/
def Memory.flush (m : Memory α) (k : Kills α) : Memory α :=
  if 0 < k.prevBin then m.release (k.prevBin - 1) k.kills else m

variable (bin : α → u8) (junk : α → Option α)

/-- The body of the loop. -/
def releaseNode (m : Memory α) (k : Kills α) (node : α) : Memory α × Kills α :=
  if bin node = 0 then (m.delete junk node, k)
  else if k.prevBin = (bin node).toNat then
    let r := k.kills.pushBack m.next node
    ({ m with next := r.1 }, { k with kills := r.2 })
  else
    let m := m.flush k
    ({ m with next := Function.update m.next node none }, ⟨⟨some node, some node⟩, (bin node).toNat⟩)

/-- For each node to release. -/
def releaseLoop : Nat → Memory α → Kills α → Option α → Option (Memory α × Kills α)
  | _, m, k, none => some (m, k)
  | 0, _, _, some _ => none
  | steps + 1, m, k, some node =>
    let next := m.next node
    let r := releaseNode bin junk m k node
    releaseLoop steps r.1 r.2 next

/-- `ReleaseBatch`. The set of kills is not initialized. -/
def releaseBatch (steps : Nat) (m : Memory α) (kills set : BatchSet α) : Option (Memory α) :=
  if set.head.isNone then some m
  else (releaseLoop bin junk steps m ⟨kills, 0⟩ set.head).map fun r => r.1.flush r.2

end Model

/-! ## The sizes -/

section Sizes

/-- Rounding up to one of `m` parts of `D` and down again is enough. -/
theorem round_up_down {D m x : Nat} (hm : 0 < m) (hx : x ≤ D) (hD : 0 < D) :
    (x * m + (D - 1)) / D ≤ m ∧ x ≤ (x * m + (D - 1)) / D * D / m := by
  have hxm : x * m ≤ D * m := Nat.mul_le_mul_right m hx
  constructor
  · apply Nat.le_of_lt_succ
    rw [Nat.div_lt_iff_lt_mul hD, Nat.succ_mul, Nat.mul_comm m D]
    omega
  · rw [Nat.le_div_iff_mul_le hm]
    have hdiv := Nat.div_add_mod (x * m + (D - 1)) D
    have hmod := Nat.mod_lt (x * m + (D - 1)) hD
    rw [Nat.mul_comm D] at hdiv
    omega

variable {sendBufferBytes numAllocators bytes : u32}

theorem maxBytes_toNat (hsend : sendBufferBytes < reuseMinimumSize) :
    (maxBytes sendBufferBytes).toNat = sendBufferBytes.toNat + 1450 := by
  have hs : sendBufferBytes.toNat < 256 := hsend
  have hread : iothreadsBufferReadBytes.toNat = 1450 := rfl
  simp only [maxBytes, BitVec.toNat_add, hread]
  omega

theorem span_toNat (hsend : sendBufferBytes < reuseMinimumSize) :
    (maxBytes sendBufferBytes - reuseMinimumSize).toNat = sendBufferBytes.toNat + 1194 := by
  have hmax := maxBytes_toNat hsend
  have hmin : reuseMinimumSize.toNat = 256 := rfl
  rw [BitVec.toNat_sub_of_le (by rw [BitVec.le_def]; omega), hmax, hmin]
  omega

theorem parts_toNat (hn : minAllocCount ≤ numAllocators) :
    (numAllocators - 1).toNat = numAllocators.toNat - 1 := by
  have hn2 : 2 ≤ numAllocators.toNat := hn
  exact BitVec.toNat_sub_of_le (by rw [BitVec.le_def]; exact (by omega : 1 ≤ numAllocators.toNat))

theorem binIndex_toNat (hsend : sendBufferBytes < reuseMinimumSize) (hn : minAllocCount ≤ numAllocators)
    (hn' : numAllocators ≤ maxAllocCount) (hb : reuseMinimumSize ≤ bytes)
    (hb' : bytes ≤ maxBytes sendBufferBytes) :
    (binIndex sendBufferBytes numAllocators bytes).toNat =
      ((bytes.toNat - 256) * (numAllocators.toNat - 1) + (sendBufferBytes.toNat + 1194 - 1)) /
        (sendBufferBytes.toNat + 1194) := by
  have hs : sendBufferBytes.toNat < 256 := hsend
  have hn255 : numAllocators.toNat ≤ 255 := hn'
  have hmax : bytes.toNat ≤ sendBufferBytes.toNat + 1450 := by
    rw [← maxBytes_toNat hsend]
    exact hb'
  have hprod : (bytes.toNat - 256) * (numAllocators.toNat - 1) ≤ 1449 * 254 :=
    Nat.mul_le_mul (by omega) (by omega)
  have hx : (bytes - reuseMinimumSize).toNat = bytes.toNat - 256 := BitVec.toNat_sub_of_le hb
  have hspan := span_toNat hsend
  have hspan1 : (maxBytes sendBufferBytes - reuseMinimumSize - 1).toNat =
      sendBufferBytes.toNat + 1194 - 1 := by
    rw [BitVec.toNat_sub_of_le, hspan]
    · rfl
    · rw [BitVec.le_def, hspan]
      exact (by omega : 1 ≤ sendBufferBytes.toNat + 1194)
  rw [binIndex, BitVec.toNat_udiv, BitVec.toNat_add, BitVec.toNat_mul, hx, parts_toNat hn, hspan, hspan1]
  rw [Nat.mod_eq_of_lt (by omega : (bytes.toNat - 256) * (numAllocators.toNat - 1) < 2 ^ 32)]
  rw [Nat.mod_eq_of_lt (by omega)]

theorem bufferBytes_toNat (hsend : sendBufferBytes < reuseMinimumSize)
    (hn : minAllocCount ≤ numAllocators) (hn' : numAllocators ≤ maxAllocCount) {bin : u32}
    (hbin : bin.toNat ≤ numAllocators.toNat - 1) :
    (bufferBytes sendBufferBytes numAllocators bin).toNat =
      256 + bin.toNat * (sendBufferBytes.toNat + 1194) / (numAllocators.toNat - 1) := by
  have hs : sendBufferBytes.toNat < 256 := hsend
  have hn255 : numAllocators.toNat ≤ 255 := hn'
  have hprod : bin.toNat * (sendBufferBytes.toNat + 1194) ≤ 254 * 1449 :=
    Nat.mul_le_mul (by omega) (by omega)
  have hle := Nat.div_le_self (bin.toNat * (sendBufferBytes.toNat + 1194)) (numAllocators.toNat - 1)
  rw [bufferBytes, BitVec.toNat_add, BitVec.toNat_udiv, BitVec.toNat_mul, parts_toNat hn, span_toNat hsend]
  rw [Nat.mod_eq_of_lt (by omega : bin.toNat * (sendBufferBytes.toNat + 1194) < 2 ^ 32)]
  have hmin : reuseMinimumSize.toNat = 256 := rfl
  rw [hmin]
  exact Nat.mod_eq_of_lt (by omega)

/-- The bin exists, its buffers are large enough, and its number fits into the buffer. -/
theorem bin_fits (hsend : sendBufferBytes < reuseMinimumSize) (hn : minAllocCount ≤ numAllocators)
    (hn' : numAllocators ≤ maxAllocCount) (hb : reuseMinimumSize ≤ bytes)
    (hb' : bytes ≤ maxBytes sendBufferBytes) :
    binIndex sendBufferBytes numAllocators bytes < numAllocators ∧
      bytes ≤ bufferBytes sendBufferBytes numAllocators (binIndex sendBufferBytes numAllocators bytes) ∧
      ((binIndex sendBufferBytes numAllocators bytes + 1).setWidth 8 : u8).toNat =
        (binIndex sendBufferBytes numAllocators bytes).toNat + 1 := by
  have hindex := binIndex_toNat hsend hn hn' hb hb'
  have hn2 : 2 ≤ numAllocators.toNat := hn
  have hn255 : numAllocators.toNat ≤ 255 := hn'
  have hb256 : 256 ≤ bytes.toNat := hb
  have hmax : bytes.toNat ≤ sendBufferBytes.toNat + 1450 := by
    rw [← maxBytes_toNat hsend]
    exact hb'
  have hx : bytes.toNat - 256 ≤ sendBufferBytes.toNat + 1194 := by omega
  obtain ⟨hle, hfits⟩ := round_up_down (m := numAllocators.toNat - 1) (by omega) hx (by omega)
  rw [← hindex] at hle hfits
  refine ⟨?_, ?_, ?_⟩
  · rw [BitVec.lt_def]
    omega
  · rw [BitVec.le_def, bufferBytes_toNat hsend hn hn' hle]
    omega
  · have hone : (1 : u32).toNat = 1 := rfl
    rw [BitVec.toNat_setWidth, BitVec.toNat_add, hone]
    omega

end Sizes

/-! ## The runs of a batch -/

section Runs

variable {α : Type} [DecidableEq α] {bin : α → u8} {junk : α → Option α} {m : Memory α} {k : Kills α}
  {kl r : List α} {rel : Nat → List α}

/-- The buffers of bin `i`: its release list, with what is about to be released to it. -/
def queued (k : Kills α) (kl : List α) (rel : Nat → List α) (i : Nat) : List α :=
  (if k.prevBin = i + 1 then kl else []) ++ rel i

/-- The set of kills is the list `kl`, apart from the release lists. -/
structure Pending (m : Memory α) (k : Kills α) (kl : List α) (rel : Nat → List α) : Prop where
  lists : ∀ i, Seg m.next (m.releaseHead i) (rel i) none
  kills : 0 < k.prevBin → BatchSet.Holds m.next k.kills kl
  empty : k.prevBin = 0 → kl = []
  nodup : kl.Nodup
  apart : ∀ a ∈ kl, ∀ i, a ∉ rel i

namespace Pending

/-- The kills are released to the previous bin. -/
theorem flush (h : Pending m k kl rel) :
    (∀ i, Seg (m.flush k).next ((m.flush k).releaseHead i) (queued k kl rel i) none) ∧
      (∀ a, a ∉ kl → (m.flush k).next a = m.next a) ∧ (m.flush k).deleted = m.deleted := by
  unfold Memory.flush
  by_cases hpos : 0 < k.prevBin
  · rw [if_pos hpos]
    have hkills := h.kills hpos
    have hnext : ∀ a, a ∉ kl → (m.release (k.prevBin - 1) k.kills).next a = m.next a :=
      fun a ha => hkills.release_next ha
    refine ⟨fun i => ?_, hnext, rfl⟩
    by_cases hi : k.prevBin = i + 1
    · rw [queued, if_pos hi]
      simp only [Memory.release, hi, Nat.add_sub_cancel, Function.update_self]
      exact hkills.release h.nodup (h.lists i) fun a ha => h.apart a ha i
    · rw [queued, if_neg hi, List.nil_append]
      simp only [Memory.release, Function.update_of_ne (show i ≠ k.prevBin - 1 by omega)]
      exact (h.lists i).congr fun a ha => hnext a fun hkl => h.apart a hkl i ha
  · rw [if_neg hpos]
    refine ⟨fun i => ?_, fun _ _ => rfl, rfl⟩
    rw [queued, if_neg (by omega), List.nil_append]
    exact h.lists i

end Pending

variable (bin junk) in
/-- The queues after a node, which is not in a queue yet. -/
theorem releaseNode_spec (h : Pending m k kl rel) {node : α} (hr : (node :: r).Nodup)
    (hseg : Seg m.next (m.next node) r none)
    (hapart : ∀ a ∈ node :: r, a ∉ kl ∧ ∀ i, a ∉ rel i) :
    ∃ kl' rel', Pending (releaseNode bin junk m k node).1 (releaseNode bin junk m k node).2 kl' rel' ∧
      Seg (releaseNode bin junk m k node).1.next (m.next node) r none ∧
      (∀ a ∈ r, a ∉ kl' ∧ ∀ i, a ∉ rel' i) ∧
      (releaseNode bin junk m k node).1.deleted =
        m.deleted ++ (if bin node = 0 then [node] else []) ∧
      ∀ i, (queued (releaseNode bin junk m k node).2 kl' rel' i).Perm
        ((if (bin node).toNat = i + 1 then [node] else []) ++ queued k kl rel i) := by
  obtain ⟨hnr, hrnd⟩ := List.nodup_cons.mp hr
  obtain ⟨hnk, hnrel⟩ := hapart node List.mem_cons_self
  unfold releaseNode
  by_cases hzero : bin node = 0
  · -- it is not in a bin
    rw [if_pos hzero]
    have hbin : (bin node).toNat = 0 := by rw [hzero]; rfl
    refine ⟨kl, rel, ⟨fun i => (h.lists i).frame (hnrel i), fun hpos => ?_, h.empty, h.nodup, h.apart⟩,
      hseg.frame hnr, fun a ha => hapart a (List.mem_cons_of_mem _ ha), ?_, fun i => ?_⟩
    · exact ⟨(h.kills hpos).seg.frame hnk, (h.kills hpos).tail⟩
    · rw [if_pos hzero]
      rfl
    · rw [if_neg (by omega), List.nil_append]
  · rw [if_neg hzero]
    have hpos : 0 < (bin node).toNat := by
      apply Nat.pos_of_ne_zero
      intro hbin
      exact hzero (BitVec.eq_of_toNat_eq hbin)
    by_cases hsame : k.prevBin = (bin node).toNat
    · -- two bins in a row match
      rw [if_pos hsame]
      have hkills := h.kills (hsame ▸ hpos)
      refine ⟨kl ++ [node], rel, ⟨fun i => ?_, fun _ => hkills.pushBack h.nodup hnk, fun h0 => ?_, ?_, ?_⟩,
        ?_, fun a ha => ?_, ?_, fun i => ?_⟩
      · exact hkills.other (h.lists i) (fun b hb hbk => h.apart b hbk i hb) (hnrel i)
      · simp only [hsame] at h0
        omega
      · exact List.nodup_append.mpr ⟨h.nodup, List.nodup_singleton node, fun a ha b hb hab =>
          hnk (by rwa [hab, List.mem_singleton.mp hb] at ha)⟩
      · intro a ha i
        rcases List.mem_append.mp ha with ha | ha
        · exact h.apart a ha i
        · rw [List.mem_singleton.mp ha]
          exact hnrel i
      · exact hkills.other hseg (fun b hb => (hapart b (List.mem_cons_of_mem _ hb)).1) hnr
      · obtain ⟨hak, harel⟩ := hapart a (List.mem_cons_of_mem _ ha)
        refine ⟨fun hm => ?_, harel⟩
        rcases List.mem_append.mp hm with hm | hm
        · exact hak hm
        · exact hnr (List.mem_singleton.mp hm ▸ ha)
      · rw [if_neg hzero, List.append_nil]
      · unfold queued
        rw [hsame]
        split
        · rw [← List.append_assoc]
          exact List.perm_append_comm.append_right _
        · exact List.Perm.refl _
    · rw [if_neg hsame]
      obtain ⟨hlists, hnext, hdel⟩ := h.flush
      have hq : ∀ a ∈ node :: r, ∀ i, a ∉ queued k kl rel i := by
        intro a ha i hm
        rcases List.mem_append.mp hm with hm | hm
        · split at hm
          · exact (hapart a ha).1 hm
          · cases hm
        · exact (hapart a ha).2 i hm
      refine ⟨[node], queued k kl rel, ⟨fun i => ?_, fun _ => ⟨⟨rfl, ?_⟩, rfl⟩, fun h0 => ?_,
        List.nodup_singleton node, ?_⟩, ?_, fun a ha => ?_, ?_, fun i => ?_⟩
      · exact (hlists i).frame (hq node List.mem_cons_self i)
      · exact Function.update_self _ _ _
      · simp only at h0
        omega
      · intro a ha i
        rw [List.mem_singleton.mp ha]
        exact hq node List.mem_cons_self i
      · refine Seg.frame hnr (hseg.congr fun a ha => hnext a ?_)
        exact (hapart a (List.mem_cons_of_mem _ ha)).1
      · refine ⟨fun hm => hnr (List.mem_singleton.mp hm ▸ ha), hq a (List.mem_cons_of_mem _ ha)⟩
      · rw [if_neg hzero, List.append_nil]
        exact hdel
      · exact List.Perm.refl _

variable (bin junk) in
theorem releaseLoop_spec {r : List α} : ∀ {steps : Nat} {m : Memory α} {k : Kills α} {kl : List α}
    {rel : Nat → List α} {p : Option α}, Pending m k kl rel → Seg m.next p r none → r.Nodup →
    (∀ a ∈ r, a ∉ kl ∧ ∀ i, a ∉ rel i) → r.length ≤ steps →
    ∃ m' k' kl' rel', releaseLoop bin junk steps m k p = some (m', k') ∧ Pending m' k' kl' rel' ∧
      m'.deleted = m.deleted ++ r.filter (fun a => bin a = 0) ∧
      ∀ i, (queued k' kl' rel' i).Perm
        (r.filter (fun a => (bin a).toNat = i + 1) ++ queued k kl rel i) := by
  induction r with
  | nil =>
    intro steps m k kl rel p h hseg hnd hapart hsteps
    obtain rfl : p = none := hseg
    refine ⟨m, k, kl, rel, by cases steps <;> rfl, h, by simp, fun i => List.Perm.refl _⟩
  | cons node r ih =>
    intro steps m k kl rel p h hseg hnd hapart hsteps
    obtain ⟨rfl, hseg⟩ := hseg
    cases steps with
    | zero => simp at hsteps
    | succ steps =>
      obtain ⟨kl₁, rel₁, h₁, hseg₁, hapart₁, hdel₁, hperm₁⟩ :=
        releaseNode_spec bin junk h hnd hseg hapart
      obtain ⟨m', k', kl', rel', hrun, h', hdel', hperm'⟩ :=
        ih h₁ hseg₁ (List.nodup_cons.mp hnd).2 hapart₁ (Nat.le_of_succ_le_succ hsteps)
      refine ⟨m', k', kl', rel', by rw [releaseLoop]; exact hrun, h', ?_, fun i => ?_⟩
      · rw [hdel', hdel₁, List.append_assoc, List.filter_cons]
        split <;> simp_all
      · refine (hperm' i).trans ?_
        refine ((hperm₁ i).append_left _).trans ?_
        rw [List.filter_cons, ← List.append_assoc]
        refine List.Perm.append_right _ ?_
        split <;> simp_all [List.perm_append_singleton]

/-- Each buffer of a bin arrives there once, and each buffer of no bin is deleted once. -/
theorem releaseBatch_spec {l : List α} {steps : Nat} {kills set : BatchSet α}
    (hset : BatchSet.Holds m.next set l) (hlists : ∀ i, Seg m.next (m.releaseHead i) (rel i) none)
    (hapart : ∀ a ∈ l, ∀ i, a ∉ rel i) (hsteps : l.length ≤ steps) :
    ∃ m', releaseBatch bin junk steps m kills set = some m' ∧
      m'.deleted = m.deleted ++ l.filter (fun a => bin a = 0) ∧
      ∀ i, ∃ rel', Seg m'.next (m'.releaseHead i) rel' none ∧
        rel'.Perm (l.filter (fun a => (bin a).toNat = i + 1) ++ rel i) := by
  unfold releaseBatch
  by_cases hnone : set.head.isNone
  · rw [if_pos hnone]
    have hseg := hset.seg
    rw [Option.isNone_iff_eq_none.mp hnone] at hseg
    obtain rfl := Seg.unique hseg (m := []) rfl
    exact ⟨m, rfl, by simp, fun i => ⟨rel i, hlists i, List.Perm.refl _⟩⟩
  · rw [if_neg hnone]
    have hstart : Pending m ⟨kills, 0⟩ [] rel :=
      ⟨hlists, fun hpos => absurd hpos (Nat.lt_irrefl 0), fun _ => rfl, List.nodup_nil, by simp⟩
    obtain ⟨m', k', kl', rel', hrun, h', hdel, hperm⟩ :=
      releaseLoop_spec bin junk hstart hset.seg hset.seg.nodup
        (fun a ha => ⟨List.not_mem_nil, hapart a ha⟩) hsteps
    obtain ⟨hflush, -, hsame⟩ := h'.flush
    refine ⟨m'.flush k', by rw [hrun]; rfl, hsame.trans hdel, fun i => ⟨_, hflush i, ?_⟩⟩
    simpa [queued] using hperm i

end Runs

/-- A request of any size gets a bin whose buffers are large enough and whose number fits into the byte,
and a batch of buffers of any bins ends where they came from. -/
theorem send_buffer_bins {α : Type} [DecidableEq α] (sendBufferBytes numAllocators : u32)
    (hsend : sendBufferBytes < reuseMinimumSize) (hn : minAllocCount ≤ numAllocators)
    (hn' : numAllocators ≤ maxAllocCount) :
    (∀ bytes, reuseMinimumSize ≤ bytes → bytes ≤ maxBytes sendBufferBytes →
      let bin := binIndex sendBufferBytes numAllocators bytes
      bin < numAllocators ∧ bytes ≤ bufferBytes sendBufferBytes numAllocators bin ∧
        (acquire sendBufferBytes numAllocators bytes).2 = bufferBytes sendBufferBytes numAllocators bin ∧
        (acquire sendBufferBytes numAllocators bytes).1.toNat = bin.toNat + 1) ∧
    ∀ (bin : α → u8) (junk : α → Option α) (m : Memory α) (rel : Nat → List α) (l : List α)
      (kills set : BatchSet α), BatchSet.Holds m.next set l →
      (∀ i, Seg m.next (m.releaseHead i) (rel i) none) → (∀ a ∈ l, ∀ i, a ∉ rel i) →
      ∃ m', releaseBatch bin junk l.length m kills set = some m' ∧
        m'.deleted = m.deleted ++ l.filter (fun a => bin a = 0) ∧
        ∀ i, ∃ rel', Seg m'.next (m'.releaseHead i) rel' none ∧
          rel'.Perm (l.filter (fun a => (bin a).toNat = i + 1) ++ rel i) := by
  refine ⟨fun bytes hb hb' => ?_, fun bin junk m rel l kills set hset hlists hapart =>
    releaseBatch_spec hset hlists hapart (Nat.le_refl _)⟩
  obtain ⟨hbin, hsize, hbyte⟩ := bin_fits hsend hn hn' hb hb'
  have hge : ¬ bytes < reuseMinimumSize := BitVec.not_lt.mpr hb
  refine ⟨hbin, hsize, ?_, ?_⟩
  · rw [acquire, if_neg hge]
  · rw [acquire, if_neg hge]
    exact hbyte

/-- A batch of buffers of bins 3, none, 3 and 1. -/
def mixedBin : Fin 4 → u8 := ![3, 0, 3, 1]

def mixedMemory : Memory (Fin 4) where
  next := ![some 1, some 2, some 3, none]
  releaseHead := fun _ => none
  deleted := []

/-- Sixteen bins. -/
theorem send_buffer_bins_sixteen :
    (acquire 64 16 1000).1 = 10 ∧ (1000 : u32) ≤ (acquire 64 16 1000).2 ∧
      (releaseBatch mixedBin (fun _ => none) 4 mixedMemory ⟨none, none⟩ ⟨some 0, some 3⟩).map
        Memory.deleted = some [1] := by
  obtain ⟨hacquire, hrelease⟩ := send_buffer_bins (α := Fin 4) 64 16 (by decide) (by decide) (by decide)
  obtain ⟨-, hsize, hbytes, -⟩ := hacquire 1000 (by decide) (by decide)
  obtain ⟨m', hrun, hdel, -⟩ := hrelease mixedBin (fun _ => none) mixedMemory (fun _ => []) [0, 1, 2, 3]
    ⟨none, none⟩ ⟨some 0, some 3⟩ (by decide) (fun _ => rfl) (by simp)
  refine ⟨by decide, by rwa [hbytes], ?_⟩
  exact (congrArg (Option.map Memory.deleted) hrun).trans (congrArg some (hdel.trans (by decide)))

end Libcat.Net.UDPSendAllocator
