import Libcat.Math.BitMath
import Mathlib.Data.List.Rotate
import Mathlib.Data.List.Range

/-!
# Time synchronization

`Client::UpdateTimeSynch`: the last samples are kept in a ring, and the clock difference is the average
over a quarter of them with the lowest round-trip times. They are chosen in one pass with the highest
time so far at hand (`Chosen`). An access outside of an array has no result.
-/

namespace Libcat.Sphynx

def tsMaxSamples : Nat := 16
def tsMinSamples : Nat := 1

/-- `TimesPingSample`. -/
structure TimesPingSample where
  rtt : u32
  delta : u32
deriving Inhabited

structure TimeSynch where
  samples : List TimesPingSample
  sampleCount : Nat
  nextIndex : Nat
  delta : u32

/-- The variables of the selection; the best samples are places in the ring. -/
structure BestSamples where
  best : List Nat
  highestRtt : u32
  highestIndex : Nat
  sumDelta : Int

namespace TimeSynch

section Model

/-- `BestSamples[best_count++] = &_ts_samples[ii]`. -/
def pushBest (best : List Nat) (ii : Nat) : Option (List Nat) :=
  if best.length < tsMaxSamples / 4 + tsMinSamples then some (best ++ [ii]) else none

variable (samples : List TimesPingSample)

/-- While still trying to fill a minimum number of samples, with `n` samples to come. -/
def fillLoop (numSamples : Nat) : Nat → Nat → BestSamples → Option (Nat × BestSamples)
  | 0, ii, b => some (ii, b)
  | n + 1, ii, b =>
    if b.best.length < numSamples then do
      let sample ← samples[ii]?
      let best ← pushBest b.best ii
      let sumDelta := b.sumDelta + sample.delta.toInt
      fillLoop numSamples n (ii + 1)
        (if b.highestRtt < sample.rtt then ⟨best, sample.rtt, ii, sumDelta⟩
        else { b with best, sumDelta })
    else some (ii, b)

/-- Find the new highest RTT entry. -/
def highestLoop : List Nat → Nat → u32 × Nat → Option (u32 × Nat)
  | [], _, highest => some highest
  | i :: rest, jj, highest => do
    let sample ← samples[i]?
    highestLoop rest (jj + 1) (if sample.rtt ≤ highest.1 then highest else (sample.rtt, jj))

/-- Replace the highest RTT by a new sample with lower RTT. -/
def replaceHighest (b : BestSamples) (ii : Nat) (sample : TimesPingSample) : Option BestSamples := do
  let i ← b.best[b.highestIndex]?
  let old ← samples[i]?
  let best := b.best.set b.highestIndex ii
  let highest ← highestLoop samples best 0 (sample.rtt, b.highestIndex)
  return ⟨best, highest.1, highest.2, b.sumDelta - old.delta.toInt + sample.delta.toInt⟩

def fight (b : BestSamples) (ii : Nat) (sample : TimesPingSample) : Option BestSamples :=
  if b.highestRtt ≤ sample.rtt then some b else replaceHighest samples b ii sample

/-- For the remainder of the samples, fight over spots. -/
def fightLoop : Nat → Nat → BestSamples → Option BestSamples
  | 0, _, b => some b
  | n + 1, ii, b => do
    let sample ← samples[ii]?
    let b ← fight samples b ii sample
    fightLoop n (ii + 1) b

/-- The lowest 25% RTT samples. -/
def select (sampleCount : Nat) : Option BestSamples := do
  let numSamples := max (sampleCount / 4) tsMinSamples
  let first ← samples[0]?
  let best ← pushBest [] 0
  let (ii, b) ← fillLoop samples numSamples (sampleCount - 1) 1 ⟨best, first.rtt, 0, first.delta.toInt⟩
  fightLoop samples (sampleCount - ii) ii b

/-- A store into the ring. -/
def storeSample (i : Nat) (sample : TimesPingSample) : Option (List TimesPingSample) :=
  if i < samples.length then some (samples.set i sample) else none

/-- `UpdateTimeSynch`. -/
def updateTimeSynch (s : TimeSynch) (sample : TimesPingSample) : Option TimeSynch := do
  let sampleCount := if s.sampleCount < tsMaxSamples then s.sampleCount + 1 else s.sampleCount
  let samples ← storeSample s.samples s.nextIndex sample
  let nextIndex := (s.nextIndex + 1) % tsMaxSamples
  let b ← select samples sampleCount
  return ⟨samples, sampleCount, nextIndex, BitVec.ofInt 32 (b.sumDelta.tdiv b.best.length)⟩

def updates : TimeSynch → List TimesPingSample → Option TimeSynch
  | s, [] => some s
  | s, sample :: rest => do
    let s ← updateTimeSynch s sample
    updates s rest

/-- A client before its first sample; the ring holds whatever its memory did. -/
def start (memory : Fin tsMaxSamples → TimesPingSample) (delta : u32) : TimeSynch :=
  ⟨List.ofFn memory, 0, 0, delta⟩

end Model

/-! ## The selection -/

section Selection

variable {samples : List TimesPingSample}

def sampleAt (samples : List TimesPingSample) (i : Nat) : TimesPingSample := samples.getD i default

theorem getElem?_sampleAt {i : Nat} (hi : i < samples.length) :
    samples[i]? = some (sampleAt samples i) := by
  rw [sampleAt, List.getD_eq_getElem?_getD, List.getElem?_eq_getElem hi, Option.getD_some]

def rttAt (samples : List TimesPingSample) (i : Nat) : Nat := (sampleAt samples i).rtt.toNat

/-- The best samples among the first ones, with the highest of their times and where it is. -/
structure Chosen (samples : List TimesPingSample) (ii : Nat) (b : BestSamples) : Prop where
  nodup : b.best.Nodup
  lt : ∀ i ∈ b.best, i < ii
  highest : ∃ i, b.best[b.highestIndex]? = some i ∧ rttAt samples i = b.highestRtt.toNat
  le_highest : ∀ i ∈ b.best, rttAt samples i ≤ b.highestRtt.toNat
  sum : b.sumDelta = (b.best.map fun i => (sampleAt samples i).delta.toInt).sum
  rest : ∀ j < ii, j ∉ b.best → ∀ i ∈ b.best, rttAt samples i ≤ rttAt samples j

/-- The loop ends with the highest time of the entries and of what it began with. -/
theorem highestLoop_spec (all rest : List Nat) (jj : Nat) (highest : u32 × Nat)
    (hdrop : all.drop jj = rest) (hlt : ∀ i ∈ all, i < samples.length)
    (hat : ∃ i, all[highest.2]? = some i ∧ rttAt samples i = highest.1.toNat) :
    ∃ h, highestLoop samples rest jj highest = some h ∧ highest.1.toNat ≤ h.1.toNat ∧
      (∃ i, all[h.2]? = some i ∧ rttAt samples i = h.1.toNat) ∧
      ∀ i ∈ rest, rttAt samples i ≤ h.1.toNat := by
  induction rest generalizing jj highest with
  | nil => exact ⟨highest, rfl, le_refl _, hat, by simp⟩
  | cons i rest ih =>
    have hi : all[jj]? = some i := by
      rw [← List.head?_drop, hdrop]
      rfl
    have hnext : all.drop (jj + 1) = rest := by
      rw [← List.drop_drop, hdrop]
      rfl
    have hsample := getElem?_sampleAt (hlt i (List.mem_of_getElem? hi))
    rw [highestLoop, hsample, Option.bind_eq_bind, Option.bind_some]
    by_cases hle : (sampleAt samples i).rtt ≤ highest.1
    · rw [if_pos hle]
      obtain ⟨h, hh, hge, hath, hall⟩ := ih (jj + 1) highest hnext hat
      exact ⟨h, hh, hge, hath, List.forall_mem_cons.mpr ⟨le_trans (BitVec.le_def.mp hle) hge, hall⟩⟩
    · rw [if_neg hle]
      obtain ⟨h, hh, hge, hath, hall⟩ := ih (jj + 1) ((sampleAt samples i).rtt, jj) hnext ⟨i, hi, rfl⟩
      have hup : highest.1.toNat ≤ rttAt samples i :=
        le_of_lt (Nat.lt_of_not_le fun h => hle (BitVec.le_def.mpr h))
      exact ⟨h, hh, le_trans hup hge, hath, List.forall_mem_cons.mpr ⟨hge, hall⟩⟩

/-- A set entry takes the place of the entry that was there. -/
theorem mem_of_not_mem_set {l : List Nat} {n j old new : Nat} (hold : l[n]? = some old)
    (hj : j ∉ l.set n new) (hne : j ≠ old) : j ∉ l := by
  intro hmem
  obtain ⟨k, hk, hkj⟩ := List.getElem_of_mem hmem
  have hplace : n ≠ k := by
    rintro rfl
    exact hne (hkj ▸ (List.getElem?_eq_some_iff.mp hold).2)
  refine hj (List.mem_of_getElem? (i := k) ?_)
  rw [List.getElem?_set_ne hplace, List.getElem?_eq_getElem hk, hkj]

theorem replaceHighest_spec {ii : Nat} {b : BestSamples} (h : Chosen samples ii b)
    (hii : ii < samples.length) (hlower : rttAt samples ii < b.highestRtt.toNat) :
    ∃ b', replaceHighest samples b ii (sampleAt samples ii) = some b' ∧
      Chosen samples (ii + 1) b' ∧ b'.best.length = b.best.length := by
  obtain ⟨old, hold, hrtt⟩ := h.highest
  have holdmem := List.mem_of_getElem? hold
  have hindex : b.highestIndex < b.best.length := (List.getElem?_eq_some_iff.mp hold).1
  have hmem : ∀ i ∈ b.best.set b.highestIndex ii, i ∈ b.best ∨ i = ii := fun i hi =>
    List.mem_or_eq_of_mem_set hi
  have hlts : ∀ i ∈ b.best.set b.highestIndex ii, i < ii + 1 := fun i hi => by
    obtain hi | rfl := hmem i hi
    · exact Nat.lt_succ_of_lt (h.lt i hi)
    · exact Nat.lt_succ_self i
  have hle : ∀ i ∈ b.best.set b.highestIndex ii, rttAt samples i ≤ b.highestRtt.toNat :=
    fun i hi => by
      obtain hi | rfl := hmem i hi
      · exact h.le_highest i hi
      · exact le_of_lt hlower
  obtain ⟨highest, hloop, -, hat, hall⟩ := @highestLoop_spec samples
    (b.best.set b.highestIndex ii) _ 0 ((sampleAt samples ii).rtt, b.highestIndex) rfl
    (fun i hi => lt_of_lt_of_le (hlts i hi) hii)
    ⟨ii, by rw [List.getElem?_set_self hindex], rfl⟩
  refine ⟨⟨b.best.set b.highestIndex ii, highest.1, highest.2,
    b.sumDelta - (sampleAt samples old).delta.toInt + (sampleAt samples ii).delta.toInt⟩, ?_,
    ⟨?_, hlts, hat, hall, ?_, ?_⟩, List.length_set⟩
  · rw [List.drop_zero] at hloop
    simp only [replaceHighest, hold, getElem?_sampleAt (lt_trans (h.lt old holdmem) hii), hloop,
      Option.bind_eq_bind, Option.bind_some]
    rfl
  · exact h.nodup.set fun hmem => absurd (h.lt ii hmem) (lt_irrefl ii)
  · have hget : b.best[b.highestIndex] = old := (List.getElem?_eq_some_iff.mp hold).2
    have hset := List.sum_set' (b.best.map fun i => (sampleAt samples i).delta.toInt)
      b.highestIndex (sampleAt samples ii).delta.toInt
    rw [dif_pos (by simpa using hindex), List.getElem_map, hget, ← h.sum] at hset
    simp only [List.map_set, hset]
    ring
  · intro j hj hjout i hi
    -- what was left out before is as high as the entry that goes out now
    by_cases hjold : j = old
    · rw [hjold, hrtt]
      exact hle i hi
    · have hjin := mem_of_not_mem_set hold hjout hjold
      have hjii : j ≠ ii := fun hjii => hjout (hjii ▸ List.mem_set hindex ii)
      have := h.rest j (by omega) hjin old holdmem
      have := hle i hi
      omega

/-- A sample that is not lower than the highest stays out. -/
theorem Chosen.skip {ii : Nat} {b : BestSamples} (h : Chosen samples ii b)
    (hhigh : b.highestRtt.toNat ≤ rttAt samples ii) : Chosen samples (ii + 1) b where
  nodup := h.nodup
  lt i hi := Nat.lt_succ_of_lt (h.lt i hi)
  highest := h.highest
  le_highest := h.le_highest
  sum := h.sum
  rest j hj hjout i hi := by
    obtain hj | rfl := Nat.lt_succ_iff_lt_or_eq.mp hj
    · exact h.rest j hj hjout i hi
    · exact le_trans (h.le_highest i hi) hhigh

theorem fight_spec {ii : Nat} {b : BestSamples} (h : Chosen samples ii b)
    (hii : ii < samples.length) :
    ∃ b', fight samples b ii (sampleAt samples ii) = some b' ∧ Chosen samples (ii + 1) b' ∧
      b'.best.length = b.best.length := by
  unfold fight
  split
  · rename_i hle
    exact ⟨b, rfl, h.skip (BitVec.le_def.mp hle), rfl⟩
  · rename_i hle
    exact replaceHighest_spec h hii (Nat.lt_of_not_le fun hge => hle (BitVec.le_def.mpr hge))

theorem fightLoop_spec (n ii : Nat) {b : BestSamples} (h : Chosen samples ii b)
    (hn : ii + n ≤ samples.length) :
    ∃ b', fightLoop samples n ii b = some b' ∧ Chosen samples (ii + n) b' ∧
      b'.best.length = b.best.length := by
  induction n generalizing ii b with
  | zero => exact ⟨b, rfl, h, rfl⟩
  | succ n ih =>
    have hii : ii < samples.length := by omega
    obtain ⟨b', hfight, hchosen, hlen⟩ := fight_spec h hii
    obtain ⟨b'', hrun, hchosen', hlen'⟩ := ih (ii + 1) hchosen (by omega)
    refine ⟨b'', ?_, by rwa [Nat.add_right_comm] at hchosen', hlen'.trans hlen⟩
    simp only [fightLoop, getElem?_sampleAt hii, hfight, hrun, Option.bind_eq_bind, Option.bind_some]

/-- While there is room every sample is among the best. -/
theorem Chosen.push {ii : Nat} {b : BestSamples} (h : Chosen samples ii b)
    (hall : b.best = List.range ii) :
    Chosen samples (ii + 1)
      (if b.highestRtt < (sampleAt samples ii).rtt then
        ⟨b.best ++ [ii], (sampleAt samples ii).rtt, ii,
          b.sumDelta + (sampleAt samples ii).delta.toInt⟩
      else ⟨b.best ++ [ii], b.highestRtt, b.highestIndex,
        b.sumDelta + (sampleAt samples ii).delta.toInt⟩) := by
  obtain ⟨i, hi, hrtt⟩ := h.highest
  have hrange : b.best ++ [ii] = List.range (ii + 1) := by rw [hall, List.range_succ]
  have hsum : b.sumDelta + (sampleAt samples ii).delta.toInt =
      ((List.range (ii + 1)).map fun i => (sampleAt samples i).delta.toInt).sum := by
    rw [h.sum, hall, List.range_succ]
    simp
  have hplace : (List.range (ii + 1))[b.highestIndex]? = some i := by
    rw [← hrange, List.getElem?_append_left (List.getElem?_eq_some_iff.mp hi).1, hi]
  have hle : ∀ k ∈ List.range (ii + 1), k = ii ∨ rttAt samples k ≤ b.highestRtt.toNat := by
    intro k hk
    obtain hk | rfl := Nat.lt_succ_iff_lt_or_eq.mp (List.mem_range.mp hk)
    · exact Or.inr (h.le_highest k (by rw [hall]; exact List.mem_range.mpr hk))
    · exact Or.inl rfl
  rw [hrange]
  split
  · rename_i hhigher
    refine ⟨List.nodup_range, fun k hk => List.mem_range.mp hk, ⟨ii, by simp, rfl⟩, fun k hk => ?_,
      hsum, fun j hj hout => absurd (List.mem_range.mpr hj) hout⟩
    obtain rfl | hk := hle k hk
    · exact le_refl _
    · exact le_trans hk (le_of_lt (BitVec.lt_def.mp hhigher))
  · rename_i hlower
    refine ⟨List.nodup_range, fun k hk => List.mem_range.mp hk, ⟨i, hplace, hrtt⟩, fun k hk => ?_,
      hsum, fun j hj hout => absurd (List.mem_range.mpr hj) hout⟩
    obtain rfl | hk := hle k hk
    · exact Nat.le_of_not_lt fun h => hlower (BitVec.lt_def.mpr h)
    · exact hk

theorem fillLoop_spec (numSamples n ii : Nat) {b : BestSamples} (h : Chosen samples ii b)
    (hall : b.best = List.range ii) (hnum : numSamples ≤ 4) (hii : ii ≤ numSamples)
    (hn : ii + n ≤ samples.length) :
    ∃ b', fillLoop samples numSamples n ii b = some (min numSamples (ii + n), b') ∧
      Chosen samples (min numSamples (ii + n)) b' ∧
      b'.best.length = min numSamples (ii + n) := by
  induction n generalizing ii b with
  | zero =>
    rw [Nat.add_zero, Nat.min_eq_right hii]
    exact ⟨b, rfl, h, by rw [hall, List.length_range]⟩
  | succ n ih =>
    rw [fillLoop]
    split
    · rename_i hroom
      rw [hall, List.length_range] at hroom
      have hpush : pushBest b.best ii = some (b.best ++ [ii]) := by
        rw [pushBest, hall, List.length_range, if_pos]
        exact Nat.lt_of_lt_of_le hroom (le_trans hnum (by decide))
      simp only [getElem?_sampleAt (show ii < samples.length by omega), hpush, Option.bind_eq_bind,
        Option.bind_some]
      have hnext := h.push hall
      rw [show ii + (n + 1) = ii + 1 + n by omega]
      refine ih (ii + 1) hnext ?_ hroom (by omega)
      split <;> rw [hall, List.range_succ]
    · rename_i hfull
      rw [hall, List.length_range] at hfull
      rw [Nat.min_eq_left (by omega), show numSamples = ii by omega]
      exact ⟨b, rfl, h, by rw [hall, List.length_range]⟩

/-- **The selection** among up to `TS_MAX_SAMPLES` samples stays in the arrays. -/
theorem select_spec {sampleCount : Nat} (hpos : 1 ≤ sampleCount) (hmax : sampleCount ≤ 16)
    (hlen : sampleCount ≤ samples.length) :
    ∃ b, select samples sampleCount = some b ∧ Chosen samples sampleCount b ∧
      b.best.length = max (sampleCount / 4) 1 := by
  have hfirst : Chosen samples 1
      ⟨[0], (sampleAt samples 0).rtt, 0, (sampleAt samples 0).delta.toInt⟩ :=
    ⟨List.nodup_singleton 0, by simp, ⟨0, rfl, rfl⟩, by simp [rttAt], by simp,
      fun j hj hout => absurd (by simpa using hj) hout⟩
  obtain ⟨b, hfill, hchosen, hb⟩ := fillLoop_spec (max (sampleCount / 4) tsMinSamples)
    (sampleCount - 1) 1 hfirst rfl (by rw [tsMinSamples]; omega) (by rw [tsMinSamples]; omega)
    (by omega)
  rw [show min (max (sampleCount / 4) tsMinSamples) (1 + (sampleCount - 1)) =
    max (sampleCount / 4) 1 by rw [tsMinSamples]; omega] at hfill hchosen hb
  obtain ⟨b', hfight, hchosen', hlen'⟩ := fightLoop_spec
    (sampleCount - max (sampleCount / 4) 1) _ hchosen (by omega)
  rw [show max (sampleCount / 4) 1 + (sampleCount - max (sampleCount / 4) 1) = sampleCount by omega]
    at hchosen'
  refine ⟨b', ?_, hchosen', hlen'.trans hb⟩
  have hpush : pushBest [] 0 = some [0] := rfl
  simp only [select, getElem?_sampleAt (show 0 < samples.length by omega), hpush, hfill, hfight,
    Option.bind_eq_bind, Option.bind_some]

/-- The chosen samples and the others are the samples. -/
theorem Chosen.perm {n : Nat} {b : BestSamples} (h : Chosen samples n b) (hn : n ≤ samples.length) :
    ((b.best ++ (List.range n).filter (· ∉ b.best)).map (sampleAt samples)).Perm
      (samples.take n) := by
  have htake : samples.take n = (List.range n).map (sampleAt samples) := by
    refine List.ext_getElem (by simp [hn]) fun i h1 h2 => ?_
    have hi : i < samples.length := by simp at h1; omega
    simp [sampleAt, hi]
  rw [htake]
  refine List.Perm.map _ ((List.perm_ext_iff_of_nodup ?_ List.nodup_range).mpr fun i => ?_)
  · refine h.nodup.append (List.nodup_range.filter _) fun i hi hi' => ?_
    simpa [hi] using (List.mem_filter.mp hi').2
  · simp only [List.mem_append, List.mem_filter, List.mem_range, decide_eq_true_eq]
    constructor
    · rintro (hi | hi)
      · exact h.lt i hi
      · exact hi.1
    · intro hi
      by_cases hmem : i ∈ b.best
      · exact Or.inl hmem
      · exact Or.inr ⟨hi, hmem⟩

end Selection

/-! ## The ring -/

/-- The oldest entry goes and the new one comes last. -/
theorem rotate_set {α : Type*} {l : List α} {i : Nat} (hi : i < l.length) (x : α) :
    (l.set i x).rotate (i + 1) = (l.rotate i).tail ++ [x] := by
  have hset : i < (l.set i x).length := by rwa [List.length_set]
  have hdrop : l.drop i ≠ [] := by rwa [Ne, List.drop_eq_nil_iff, Nat.not_le]
  rw [List.rotate_eq_drop_append_take hset, List.rotate_eq_drop_append_take hi.le,
    List.drop_set_of_lt (Nat.lt_succ_self i), List.take_succ_eq_append_getElem hset,
    List.getElem_set_self, List.take_set_of_le (le_refl i), List.tail_append_of_ne_nil hdrop,
    List.tail_drop, List.append_assoc]

/-- The ring holds the last samples, with the oldest at the place of the next. -/
structure Ring (s : TimeSynch) (history : List TimesPingSample) : Prop where
  length : s.samples.length = tsMaxSamples
  count : s.sampleCount = min history.length tsMaxSamples
  next : s.nextIndex = history.length % tsMaxSamples
  last : (s.samples.rotate s.nextIndex).drop (tsMaxSamples - s.sampleCount) =
    history.drop (history.length - tsMaxSamples)

theorem Ring.start (memory : Fin tsMaxSamples → TimesPingSample) (delta : u32) :
    Ring (start memory delta) [] where
  length := List.length_ofFn
  count := rfl
  next := rfl
  last := by
    simp [TimeSynch.start]

/-- What is in use of the ring are the last samples in some order. -/
theorem Ring.perm {s : TimeSynch} {history : List TimesPingSample} (h : Ring s history) :
    (s.samples.take s.sampleCount).Perm (history.drop (history.length - tsMaxSamples)) := by
  have hlen := h.length
  have hcount := h.count
  have hlast := h.last
  by_cases hfull : tsMaxSamples ≤ history.length
  · rw [Nat.min_eq_right hfull] at hcount
    rw [hcount, Nat.sub_self, List.drop_zero] at hlast
    rw [hcount, ← hlen, List.take_length, hlen, ← hlast]
    exact (List.rotate_perm _ _).symm
  · have hlt : history.length < tsMaxSamples := Nat.lt_of_not_le hfull
    have hnext := h.next
    rw [Nat.mod_eq_of_lt hlt] at hnext
    rw [Nat.min_eq_left hlt.le] at hcount
    rw [hcount, hnext, List.rotate_eq_drop_append_take (by omega), List.drop_append_of_le_length
      (by simp [hlen]), List.drop_drop, show history.length + (tsMaxSamples - history.length) =
        s.samples.length by omega, List.drop_length, List.nil_append] at hlast
    rw [hcount, hlast]

/-- A new sample in the ring. -/
theorem Ring.store {s : TimeSynch} {history : List TimesPingSample} (h : Ring s history)
    (sample : TimesPingSample) (delta : u32) :
    Ring ⟨s.samples.set s.nextIndex sample,
      if s.sampleCount < tsMaxSamples then s.sampleCount + 1 else s.sampleCount,
      (s.nextIndex + 1) % tsMaxSamples, delta⟩ (history ++ [sample]) := by
  have hlen := h.length
  have hcount := h.count
  have hnext := h.next
  have hin : s.nextIndex < s.samples.length := by
    rw [hlen, hnext]
    exact Nat.mod_lt _ (by decide)
  refine ⟨by simpa using hlen, ?_, ?_, ?_⟩
  · simp only [hcount, List.length_append, List.length_singleton]
    split <;> omega
  · simp only [hnext, List.length_append, List.length_singleton, Nat.mod_add_mod]
  · have hrotate : (s.samples.set s.nextIndex sample).rotate ((s.nextIndex + 1) % tsMaxSamples) =
        (s.samples.rotate s.nextIndex).tail ++ [sample] := by
      have hmod := List.rotate_mod (s.samples.set s.nextIndex sample) (s.nextIndex + 1)
      rw [List.length_set, hlen] at hmod
      rw [hmod, rotate_set hin sample]
    have htail : (s.samples.rotate s.nextIndex).tail.length + 1 = tsMaxSamples := by
      rw [List.length_tail, List.length_rotate, hlen]
      rfl
    have hlast := h.last
    dsimp only
    rw [hrotate]
    by_cases hfull : tsMaxSamples ≤ history.length
    · rw [Nat.min_eq_right hfull] at hcount
      rw [hcount, Nat.sub_self, List.drop_zero] at hlast
      rw [hcount, if_neg (lt_irrefl _), Nat.sub_self, List.drop_zero, hlast, List.tail_drop,
        List.length_append, List.length_singleton, List.drop_append_of_le_length (by omega),
        show history.length - tsMaxSamples + 1 = history.length + 1 - tsMaxSamples by omega]
    · have hlt : history.length < tsMaxSamples := Nat.lt_of_not_le hfull
      rw [Nat.min_eq_left hlt.le] at hcount
      rw [hcount, Nat.sub_eq_zero_of_le hlt.le, List.drop_zero] at hlast
      rw [hcount, if_pos hlt, List.drop_append_of_le_length (by omega), ← List.drop_one,
        List.drop_drop, show 1 + (tsMaxSamples - (history.length + 1)) =
          tsMaxSamples - history.length by omega, hlast, List.length_append, List.length_singleton,
        Nat.sub_eq_zero_of_le hlt, List.drop_zero]

/-! ## Updates -/

/-- The difference is the average over a quarter of the last samples, and no other one of these has a
lower round-trip time. -/
def Averages (s : TimeSynch) (last : List TimesPingSample) : Prop :=
  ∃ chosen others : List TimesPingSample, (chosen ++ others).Perm last ∧
    chosen.length = max (last.length / 4) tsMinSamples ∧
    (∀ c ∈ chosen, ∀ o ∈ others, c.rtt.toNat ≤ o.rtt.toNat) ∧
    s.delta = BitVec.ofInt 32 ((chosen.map fun c : TimesPingSample => c.delta.toInt).sum.tdiv chosen.length)

theorem updateTimeSynch_spec {s : TimeSynch} {history : List TimesPingSample} (h : Ring s history)
    (sample : TimesPingSample) :
    ∃ s', updateTimeSynch s sample = some s' ∧ Ring s' (history ++ [sample]) ∧
      Averages s' ((history ++ [sample]).drop ((history ++ [sample]).length - tsMaxSamples)) := by
  have hstore : storeSample s.samples s.nextIndex sample =
      some (s.samples.set s.nextIndex sample) := by
    rw [storeSample, if_pos]
    rw [h.length, h.next]
    exact Nat.mod_lt _ (by decide)
  have hring := h.store sample 0
  have hcount := hring.count
  have hlen := hring.length
  have hperm := hring.perm
  generalize hn : (if s.sampleCount < tsMaxSamples then s.sampleCount + 1 else s.sampleCount) = n
    at hring hcount hperm
  dsimp only at hcount hlen hperm
  have hmax : tsMaxSamples = 16 := rfl
  rw [List.length_append, List.length_singleton] at hcount
  obtain ⟨b, hselect, hchosen, hb⟩ := @select_spec (s.samples.set s.nextIndex sample) n
    (by omega) (by omega) (by omega)
  refine ⟨⟨s.samples.set s.nextIndex sample, n, (s.nextIndex + 1) % tsMaxSamples,
    BitVec.ofInt 32 (b.sumDelta.tdiv b.best.length)⟩, ?_, ?_, ?_⟩
  · simp only [updateTimeSynch, hstore, hn, hselect, Option.bind_eq_bind, Option.bind_some]
    rfl
  · exact ⟨hring.length, hring.count, hring.next, hring.last⟩
  · have hall := (hchosen.perm (by omega)).trans hperm
    rw [List.map_append] at hall
    refine ⟨_, _, hall, ?_, ?_, ?_⟩
    · rw [List.length_map, hb, ← hperm.length_eq, List.length_take, Nat.min_eq_left (by omega)]
      rfl
    · intro c hc o ho
      obtain ⟨i, hi, rfl⟩ := List.mem_map.mp hc
      obtain ⟨j, hj, rfl⟩ := List.mem_map.mp ho
      obtain ⟨hjn, hjout⟩ := List.mem_filter.mp hj
      exact hchosen.rest j (List.mem_range.mp hjn) (by simpa using hjout) i hi
    · rw [hchosen.sum, List.map_map, List.length_map]
      rfl

theorem updates_append (s : TimeSynch) (before : List TimesPingSample) (last : TimesPingSample) :
    updates s (before ++ [last]) = (updates s before).bind fun s => updateTimeSynch s last := by
  induction before generalizing s with
  | nil => simp [updates]
  | cons sample rest ih =>
    simp only [List.cons_append, updates, ih, Option.bind_eq_bind, Option.bind_assoc]

theorem updates_ring (memory : Fin tsMaxSamples → TimesPingSample) (delta : u32)
    (history : List TimesPingSample) :
    ∃ s, updates (start memory delta) history = some s ∧ Ring s history := by
  induction history using List.reverseRecOn with
  | nil => exact ⟨_, rfl, Ring.start memory delta⟩
  | append_singleton history sample ih =>
    obtain ⟨s, hs, hring⟩ := ih
    obtain ⟨s', hs', hring', -⟩ := updateTimeSynch_spec hring sample
    exact ⟨s', by rw [updates_append, hs, Option.bind_some, hs'], hring'⟩

/-- **Time synchronization.** After any samples, one at least, the difference is the average over those
of the last ones that came back soonest. -/
theorem updates_averages (memory : Fin tsMaxSamples → TimesPingSample) (delta : u32)
    (before : List TimesPingSample) (last : TimesPingSample) :
    ∃ s, updates (start memory delta) (before ++ [last]) = some s ∧
      Averages s ((before ++ [last]).drop ((before ++ [last]).length - tsMaxSamples)) := by
  obtain ⟨s, hs, hring⟩ := updates_ring memory delta before
  obtain ⟨s', hs', -, haverages⟩ := updateTimeSynch_spec hring last
  exact ⟨s', by rw [updates_append, hs, Option.bind_some, hs'], haverages⟩

end TimeSynch

end Libcat.Sphynx
