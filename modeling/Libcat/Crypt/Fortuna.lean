import Libcat.Lib.Bytes
import Libcat.Lib.Run
import Libcat.Math.BitMath

/-!
# Fortuna

`FortunaOutput` hands out random bytes from a cache of one block, straight from the hash for whole blocks
of a long request, and from a new block for the rest; `FortunaFactory` collects entropy in pools and
empties some of them into each new master seed. The hash is any `ICryptHash`.

- `random_stream`: between two reseeds the bytes handed out are the first ones of the blocks.
- `pool_schedule`: which reseed empties which pool.
-/

namespace Libcat.Crypt.Fortuna

open Libcat.Run

/-- `ICryptHash`: its methods as functions of the object. -/
structure ICryptHash (η : Type) where
  beginKey : Nat → η → η
  setKey : η → η → η
  beginPRNG : η → η
  crunch : List u8 → η → η
  endHash : η → η
  generate : Nat → η → List u8 × η
  length_generate : ∀ n h, (generate n h).1.length = n

def entropyPools : Nat := 32
def poolBits : Nat := 512
def poolBytes : Nat := poolBits / 8
def outputCacheBytes : Nat := poolBytes * 8

structure Factory (η : Type) where
  masterSeedRevision : u32
  masterSeed : η
  reseedCounter : u32
  pool : Nat → η

structure Output (η : Type) where
  seedRevision : u32
  outputHash : η
  cachedRandomBytes : List u8
  usedBytes : Nat

section Model

variable {η : Type} (hash : ICryptHash η)

/-- `GetNextKey`. -/
def getNextKey (f : Factory η) (o : Output η) : Factory η × Output η :=
  let (keyMaterial, masterSeed) := hash.generate poolBytes f.masterSeed
  let outputHash := hash.beginPRNG (hash.beginKey poolBits o.outputHash)
  ({ f with masterSeed },
    { o with
        seedRevision := f.masterSeedRevision
        outputHash := hash.endHash (hash.crunch keyMaterial outputHash) })

/-- `FortunaOutput::Reseed`. -/
def reseedOutput (f : Factory η) (o : Output η) : Factory η × Output η :=
  let (f, o) := getNextKey hash f o
  let (cachedRandomBytes, outputHash) := hash.generate outputCacheBytes o.outputHash
  (f, { o with outputHash, cachedRandomBytes, usedBytes := 0 })

/-- The whole new blocks, the bytes still needed and the hash. -/
def wholeBlocks : Nat → Nat → η → List u8 × Nat × η
  | 0, bytes, h => ([], bytes, h)
  | fuel + 1, bytes, h =>
    if outputCacheBytes ≤ bytes then
      let block := hash.generate outputCacheBytes h
      let rest := wholeBlocks fuel (bytes - outputCacheBytes) block.2
      (block.1 ++ rest.1, rest.2)
    else ([], bytes, h)

/-- `Generate(buffer, bytes)` once the seed is the last one. -/
def serve (bytes : Nat) (o : Output η) : List u8 × Output η :=
  let remaining := outputCacheBytes - o.usedBytes
  if bytes < remaining then
    ((o.cachedRandomBytes.drop o.usedBytes).take bytes, { o with usedBytes := o.usedBytes + bytes })
  else
    let cached := (o.cachedRandomBytes.drop o.usedBytes).take remaining
    -- no more rounds than bytes
    let (blocks, bytes, h) := wholeBlocks hash bytes (bytes - remaining) o.outputHash
    let (cachedRandomBytes, outputHash) := hash.generate outputCacheBytes h
    (cached ++ blocks ++ cachedRandomBytes.take bytes,
      { o with outputHash, cachedRandomBytes, usedBytes := bytes })

/-- What an output shows: the hash that a reseed leaves it, and the bytes it hands out. -/
inductive Event (η : Type) where
  | reseeded (key : η)
  | handed (bytes : List u8)

/-- `Generate(buffer, bytes)`, with the factory as it is then. -/
def generate (o : Output η) (request : Factory η × Nat) : Output η × List (Event η) :=
  let (f, bytes) := request
  if o.seedRevision ≠ f.masterSeedRevision then
    let key := (getNextKey hash f o).2.outputHash
    let o := (reseedOutput hash f o).2
    let (given, o) := serve hash bytes o
    (o, [.reseeded key, .handed given])
  else
    let (given, o) := serve hash bytes o
    (o, [.handed given])

end Model

/-! ## The stream -/

section Stream

variable {η : Type} (hash : ICryptHash η)

/-- The first blocks of `OutputHash.Generate`, and the hash after them. -/
def blocks : Nat → η → List u8 × η
  | 0, h => ([], h)
  | k + 1, h =>
    let r := blocks k h
    let s := hash.generate outputCacheBytes r.2
    (r.1 ++ s.1, s.2)

theorem blocks_add (j k : Nat) (h : η) :
    blocks hash (j + k) h =
      ((blocks hash j h).1 ++ (blocks hash k (blocks hash j h).2).1,
        (blocks hash k (blocks hash j h).2).2) := by
  induction k with
  | zero => simp [blocks]
  | succ k ih =>
    rw [← Nat.add_assoc]
    simp only [blocks, ih, List.append_assoc]

theorem outputCacheBytes_pos : 0 < outputCacheBytes := by decide

theorem wholeBlocks_spec {fuel bytes : Nat} (hfuel : bytes ≤ fuel) (h : η) :
    ∃ k, (wholeBlocks hash fuel bytes h).1 = (blocks hash k h).1 ∧
      (wholeBlocks hash fuel bytes h).2.2 = (blocks hash k h).2 ∧
      (wholeBlocks hash fuel bytes h).2.1 < outputCacheBytes := by
  have hpos := outputCacheBytes_pos
  induction fuel generalizing bytes h with
  | zero =>
    obtain rfl : bytes = 0 := by omega
    exact ⟨0, rfl, rfl, hpos⟩
  | succ fuel ih =>
    unfold wholeBlocks
    by_cases hle : outputCacheBytes ≤ bytes
    · rw [if_pos hle]
      obtain ⟨k, h1, h2, h3⟩ := @ih (bytes - outputCacheBytes) (by omega)
        (hash.generate outputCacheBytes h).2
      have hadd := blocks_add hash 1 k h
      have hone : blocks hash 1 h = hash.generate outputCacheBytes h := by simp [blocks]
      rw [hone] at hadd
      refine ⟨1 + k, ?_, ?_, h3⟩
      · rw [hadd, ← h1]
      · rw [hadd, ← h2]
    · rw [if_neg hle]
      exact ⟨0, rfl, rfl, Nat.lt_of_not_le hle⟩

variable {hash}

/-- What is in the cache goes on from what was handed out since the reseed. -/
structure Fed (hash : ICryptHash η) (key : η) (given : List u8) (o : Output η) (k : Nat) : Prop where
  hash_eq : o.outputHash = (blocks hash k key).2
  stream : given ++ o.cachedRandomBytes.drop o.usedBytes = (blocks hash k key).1
  length : o.cachedRandomBytes.length = outputCacheBytes
  used : o.usedBytes < outputCacheBytes

theorem Fed.prefix {key : η} {given : List u8} {o : Output η} {k : Nat} (h : Fed hash key given o k) :
    given <+: (blocks hash k key).1 := ⟨_, h.stream⟩

theorem fed_reseedOutput (f : Factory η) (o : Output η) :
    Fed hash (getNextKey hash f o).2.outputHash [] (reseedOutput hash f o).2 1 where
  hash_eq := rfl
  stream := rfl
  length := hash.length_generate _ _
  used := outputCacheBytes_pos

theorem Fed.serve {key : η} {given : List u8} {o : Output η} {k : Nat} (h : Fed hash key given o k)
    (bytes : Nat) : ∃ k', Fed hash key (given ++ (Fortuna.serve hash bytes o).1)
      (Fortuna.serve hash bytes o).2 k' := by
  unfold Fortuna.serve
  dsimp only
  have hused := h.used
  by_cases hlt : bytes < outputCacheBytes - o.usedBytes
  · rw [if_pos hlt]
    refine ⟨k, h.hash_eq, ?_, h.length, ?_⟩
    · show given ++ _ ++ o.cachedRandomBytes.drop (o.usedBytes + bytes) = _
      rw [List.append_assoc, ← List.drop_drop, List.take_append_drop]
      exact h.stream
    · show o.usedBytes + bytes < outputCacheBytes
      omega
  · rw [if_neg hlt]
    obtain ⟨j, h1, h2, h3⟩ :=
      wholeBlocks_spec hash (Nat.sub_le bytes (outputCacheBytes - o.usedBytes)) o.outputHash
    set r := wholeBlocks hash bytes (bytes - (outputCacheBytes - o.usedBytes)) o.outputHash with hr
    have htake : (o.cachedRandomBytes.drop o.usedBytes).take (outputCacheBytes - o.usedBytes) =
        o.cachedRandomBytes.drop o.usedBytes :=
      List.take_of_length_le (by rw [List.length_drop, h.length])
    have hblocks := blocks_add hash k (j + 1) key
    rw [← h.hash_eq] at hblocks
    refine ⟨k + (j + 1), ?_, ?_, hash.length_generate _ _, h3⟩
    · show (hash.generate outputCacheBytes r.2.2).2 = _
      rw [hblocks, h2]
      rfl
    · show given ++ (_ ++ r.1 ++ (hash.generate outputCacheBytes r.2.2).1.take r.2.1) ++
        (hash.generate outputCacheBytes r.2.2).1.drop r.2.1 = _
      rw [hblocks, htake, ← h.stream, h1, h2]
      simp only [blocks, List.append_assoc, List.take_append_drop]

/-- **The random stream.** However a run of requests went, and whatever the factory was at each, the
bytes handed out since the last reseed are the first ones of the blocks generated since, and the cache
is never used up. -/
theorem random_stream (hash : ICryptHash η) (f : Factory η) (o : Output η)
    (requests : List (Factory η × Nat)) :
    ∃ (before : List (Event η)) (key : η) (given : List (List u8)) (k : Nat),
      .reseeded (getNextKey hash f o).2.outputHash ::
          (exec (generate hash) (reseedOutput hash f o).2 requests).2 =
        before ++ .reseeded key :: given.map .handed ∧
      given.flatten <+: (blocks hash k key).1 ∧
      (exec (generate hash) (reseedOutput hash f o).2 requests).1.outputHash = (blocks hash k key).2 ∧
      (exec (generate hash) (reseedOutput hash f o).2 requests).1.usedBytes < outputCacheBytes := by
  have hinv := @exec_inv' _ _ _ (generate hash)
    (fun o log => ∃ (before : List (Event η)) (key : η) (given : List (List u8)) (k : Nat),
      log = before ++ .reseeded key :: given.map .handed ∧
      Fed hash key given.flatten o k) ?_ requests (reseedOutput hash f o).2
    [.reseeded (getNextKey hash f o).2.outputHash] ⟨[], _, [], 1, rfl, fed_reseedOutput f o⟩
  · obtain ⟨before, key, given, k, hlog, hfed⟩ := hinv
    exact ⟨before, key, given, k, hlog, hfed.prefix, hfed.hash_eq, hfed.used⟩
  · rintro o log ⟨f, bytes⟩ ⟨before, key, given, k, rfl, hfed⟩
    unfold generate
    dsimp only
    split_ifs with hrev
    · obtain ⟨k', hfed'⟩ := (fed_reseedOutput f o).serve bytes
      refine ⟨before ++ .reseeded key :: given.map .handed, _,
        [(serve hash bytes (reseedOutput hash f o).2).1], k', rfl, ?_⟩
      simpa using hfed'
    · obtain ⟨k', hfed'⟩ := hfed.serve bytes
      refine ⟨before, key, given ++ [(serve hash bytes o).1], k', ?_, ?_⟩
      · simp
      · simpa using hfed'

end Stream

/-! ## Pools -/

section PoolModel

variable {η : Type} (hash : ICryptHash η)

/-- `Reseed` at work: the seed, the pools, and which of them were emptied into it. -/
structure Seeding (η : Type) where
  nextSeed : η
  pool : Nat → η
  emptied : List Nat

/-- `End`, `Generate` and `BeginKey` of a pool, with `Crunch` of its output. -/
def emptyPool (ii : Nat) (s : Seeding η) : Seeding η :=
  let (poolOutput, pool) := hash.generate poolBytes (hash.endHash (s.pool ii))
  { nextSeed := hash.crunch poolOutput s.nextSeed
    pool := Function.update s.pool ii (hash.beginKey poolBits pool)
    emptied := s.emptied ++ [ii] }

/-- Pool 0, and the loop over the others up to `ii`. -/
def seedLoop (reseedCounter : u32) : Nat → Seeding η → Seeding η
  | 0, s => emptyPool hash 0 s
  | ii + 1, s =>
    let s := seedLoop reseedCounter ii s
    if reseedCounter &&& ((1 : u32) <<< ii) ≠ 0 then emptyPool hash (ii + 1) s else s

/-- `FortunaFactory::Reseed`, with the pools it emptied. `NextSeed` is a new object. -/
def reseed (newSkein : η) (f : Factory η) : Factory η × List Nat :=
  let nextSeed :=
    if f.reseedCounter = 0 then hash.beginKey poolBits newSkein else hash.setKey newSkein f.masterSeed
  let s := seedLoop hash f.reseedCounter (entropyPools - 1) ⟨hash.beginPRNG nextSeed, f.pool, []⟩
  let masterSeed := hash.beginPRNG (hash.setKey f.masterSeed (hash.endHash s.nextSeed))
  let materialRevision := f.masterSeedRevision + 1
  let materialReseedCount := f.reseedCounter + 1
  let masterSeed := hash.crunch (Bytes.toBytes 4 materialRevision) masterSeed
  let masterSeed := hash.crunch (Bytes.toBytes 4 materialReseedCount) masterSeed
  ({ masterSeedRevision := materialRevision
     masterSeed := hash.endHash masterSeed
     reseedCounter := materialReseedCount
     pool := s.pool }, s.emptied)

/-- What happens to a factory. -/
inductive Use (η : Type) where
  | poll (ii : Nat) (bytes : List u8)
  | nextKey (o : Output η)
  | reseed (newSkein : η)

def use (f : Factory η) : Use η → Factory η × List (List Nat)
  | .poll ii bytes => ({ f with pool := Function.update f.pool ii (hash.crunch bytes (f.pool ii)) }, [])
  | .nextKey o => ((getNextKey hash f o).1, [])
  | .reseed newSkein => ((reseed hash newSkein f).1, [(reseed hash newSkein f).2])

/-- The fields that `OnInitialize` sets; the entropy sources and the first `Reseed` follow. -/
def onInitialize (f : Factory η) : Factory η :=
  { f with
      masterSeedRevision := 0
      reseedCounter := 0
      pool := fun ii => if ii < entropyPools then hash.beginKey poolBits (f.pool ii) else f.pool ii }

end PoolModel

section Pools

variable {η : Type} {hash : ICryptHash η}

theorem bit_iff (x : u32) {n : Nat} (hn : n < 32) :
    x &&& ((1 : u32) <<< n) ≠ 0 ↔ x.toNat.testBit n := by
  have hmask : x &&& ((1 : u32) <<< n) = if x.getLsbD n then BitVec.twoPow 32 n else 0 :=
    BitVec.and_twoPow x n
  rw [hmask, ← BitVec.getLsbD]
  split
  · rename_i h
    refine iff_of_true (fun h0 => ?_) h
    have := congrArg BitVec.toNat h0
    rw [BitVec.toNat_twoPow, Nat.mod_eq_of_lt (Nat.pow_lt_pow_right (by omega) hn)] at this
    exact absurd this (Nat.two_pow_pos n).ne'
  · rename_i h
    exact iff_of_false (not_not.mpr rfl) h

theorem seedLoop_emptied (hash : ICryptHash η) (counter : u32) {n : Nat} (hn : n < entropyPools) (s : Seeding η) (i : Nat) :
    i ∈ (seedLoop hash counter n s).emptied ↔
      i ∈ s.emptied ∨ i = 0 ∨ 1 ≤ i ∧ i ≤ n ∧ counter.toNat.testBit (i - 1) := by
  induction n with
  | zero =>
    have hnone : ¬ (1 ≤ i ∧ i ≤ 0 ∧ counter.toNat.testBit (i - 1)) := by omega
    simp only [seedLoop, emptyPool, List.mem_append, List.mem_singleton, hnone, or_false]
  | succ n ih =>
    have hbit := bit_iff counter (show n < 32 from Nat.lt_of_succ_lt hn)
    have hsucc : 1 ≤ i ∧ i ≤ n + 1 ∧ counter.toNat.testBit (i - 1) ↔
        (1 ≤ i ∧ i ≤ n ∧ counter.toNat.testBit (i - 1)) ∨ i = n + 1 ∧ counter.toNat.testBit n := by
      constructor
      · rintro ⟨h1, h2, h3⟩
        rcases Nat.lt_or_ge n i with hlt | hge
        · obtain rfl : i = n + 1 := by omega
          exact .inr ⟨rfl, h3⟩
        · exact .inl ⟨h1, hge, h3⟩
      · rintro (⟨h1, h2, h3⟩ | ⟨rfl, h3⟩)
        · exact ⟨h1, by omega, h3⟩
        · exact ⟨by omega, le_rfl, h3⟩
    have ih := ih (Nat.lt_of_succ_lt hn)
    unfold seedLoop
    dsimp only
    rw [hsucc]
    by_cases h : counter.toNat.testBit n
    · rw [if_pos (hbit.mpr h), emptyPool]
      simp only [List.mem_append, List.mem_singleton, ih, h, and_true, or_assoc]
    · rw [if_neg (fun hc => h (hbit.mp hc)), ih]
      simp only [h, and_false, or_false, Bool.false_eq_true]

/-- A pool that is not emptied stays as it is, and one that is starts anew. -/
theorem seedLoop_pool (hash : ICryptHash η) (counter : u32) (n : Nat) (s : Seeding η) (i : Nat) :
    (i ∉ (seedLoop hash counter n s).emptied → (seedLoop hash counter n s).pool i = s.pool i) ∧
      (i ∈ (seedLoop hash counter n s).emptied → i ∉ s.emptied →
        ∃ old, (seedLoop hash counter n s).pool i = hash.beginKey poolBits old) := by
  have hstep : ∀ (j : Nat) (t : Seeding η),
      ((i ∉ t.emptied → t.pool i = s.pool i) ∧
        (i ∈ t.emptied → i ∉ s.emptied → ∃ old, t.pool i = hash.beginKey poolBits old)) →
      ((i ∉ (emptyPool hash j t).emptied → (emptyPool hash j t).pool i = s.pool i) ∧
        (i ∈ (emptyPool hash j t).emptied → i ∉ s.emptied →
          ∃ old, (emptyPool hash j t).pool i = hash.beginKey poolBits old)) := by
    rintro j t ⟨h1, h2⟩
    unfold emptyPool
    simp only [List.mem_append, List.mem_singleton]
    by_cases hij : i = j
    · subst hij
      refine ⟨fun h => absurd (.inr rfl) h, fun _ _ => ⟨_, Function.update_self ..⟩⟩
    · rw [Function.update_of_ne hij]
      exact ⟨fun h => h1 fun hm => h (.inl hm), fun h => h2 (h.resolve_right hij)⟩
  induction n with
  | zero => exact hstep 0 s ⟨fun _ => rfl, fun h h' => absurd h h'⟩
  | succ n ih =>
    unfold seedLoop
    dsimp only
    split
    · exact hstep (n + 1) _ ih
    · exact ih

theorem reseed_pool (newSkein : η) (f : Factory η) (i : Nat) :
    (i ∉ (reseed hash newSkein f).2 → (reseed hash newSkein f).1.pool i = f.pool i) ∧
      (i ∈ (reseed hash newSkein f).2 →
        ∃ old, (reseed hash newSkein f).1.pool i = hash.beginKey poolBits old) := by
  have h := seedLoop_pool hash f.reseedCounter (entropyPools - 1)
    ⟨hash.beginPRNG (if f.reseedCounter = 0 then hash.beginKey poolBits newSkein
      else hash.setKey newSkein f.masterSeed), f.pool, []⟩ i
  exact ⟨h.1, fun hi => h.2 hi (by simp)⟩

theorem reseed_emptied (newSkein : η) (f : Factory η) {i : Nat} (hi : i < entropyPools) :
    i ∈ (reseed hash newSkein f).2 ↔ i = 0 ∨ 1 ≤ i ∧ f.reseedCounter.toNat.testBit (i - 1) := by
  have h := @seedLoop_emptied _ hash f.reseedCounter (entropyPools - 1) (by decide)
    ⟨hash.beginPRNG (if f.reseedCounter = 0 then hash.beginKey poolBits newSkein
      else hash.setKey newSkein f.masterSeed), f.pool, []⟩ i
  have hle : i ≤ entropyPools - 1 := Nat.le_sub_one_of_lt hi
  simp only [List.not_mem_nil, false_or, hle, true_and] at h
  exact h

/-- The bits that choose pools are the same in the counter and in the number of reseeds. -/
theorem testBit_counter (n : Nat) {i : Nat} (hi : i < entropyPools) :
    (BitVec.ofNat 32 n).toNat.testBit (i - 1) = n.testBit (i - 1) := by
  have hlt : i - 1 < 32 := by
    have : i < 32 := hi
    omega
  rw [BitVec.toNat_ofNat, Nat.testBit_mod_two_pow, decide_eq_true hlt, Bool.true_and]

/-- Pool `i` is emptied by reseed number `n`. -/
def Empties (i n : Nat) : Prop := i = 0 ∨ 1 ≤ i ∧ n.testBit (i - 1)

instance empties_decidable (i : Nat) : DecidablePred (Empties i) := fun _ =>
  inferInstanceAs (Decidable (_ ∨ _))

/-- The record of a run: a list of pools for each reseed. -/
structure Schedule (f : Factory η) (log : List (List Nat)) : Prop where
  counter : f.reseedCounter = BitVec.ofNat 32 log.length
  emptied : ∀ n < log.length, ∀ i < entropyPools, i ∈ log.getD n [] ↔ Empties i n

theorem Schedule.use {f : Factory η} {log : List (List Nat)} (h : Schedule f log) (u : Use η) :
    Schedule (use hash f u).1 (log ++ (use hash f u).2) := by
  cases u with
  | poll ii bytes => simpa [Fortuna.use] using ⟨h.counter, h.emptied⟩
  | nextKey o => simpa [Fortuna.use] using ⟨h.counter, h.emptied⟩
  | reseed newSkein =>
    refine ⟨?_, fun n hn i hi => ?_⟩
    · show f.reseedCounter + 1 = BitVec.ofNat 32 (log ++ [_]).length
      rw [h.counter, List.length_append, List.length_singleton, BitVec.ofNat_add]
      rfl
    · have hlen : (log ++ (Fortuna.use hash f (.reseed newSkein)).2).length = log.length + 1 := by
        simp [Fortuna.use]
      rw [hlen] at hn
      rcases Nat.lt_or_ge n log.length with hlt | hge
      · rw [List.getD_append _ _ _ _ hlt]
        exact h.emptied n hlt i hi
      · obtain rfl : n = log.length := by omega
        rw [List.getD_append_right _ _ _ _ le_rfl, Nat.sub_self]
        show i ∈ (reseed hash newSkein f).2 ↔ _
        rw [reseed_emptied newSkein f hi, h.counter, testBit_counter _ hi]
        rfl

/-! ## Counting -/

/-- A window as long as the period counts the same wherever it starts. -/
theorem count_window {p : Nat → Prop} [DecidablePred p] {a : Nat} (h : ∀ x, p (x + a) ↔ p x) (n : Nat) :
    Nat.count (fun j => p (n + j)) a = Nat.count p a := by
  induction n with
  | zero => simp only [Nat.zero_add]
  | succ n ih =>
    have hfront := Nat.count_succ' (fun j => p (n + j)) a
    have hback := Nat.count_succ (fun j => p (n + j)) a
    have hends : (if p (n + a) then 1 else 0) = if p (n + 0) then 1 else 0 := if_congr (h n) rfl rfl
    rw [hends] at hback
    have hshift : Nat.count (fun j => p (n + 1 + j)) a = Nat.count (fun j => p (n + (j + 1))) a := by
      simp only [Nat.add_assoc, Nat.add_comm 1]
    rw [hshift, ← ih]
    omega

theorem empties_add (i x : Nat) : Empties i (x + 2 ^ i) ↔ Empties i x := by
  unfold Empties
  rcases Nat.eq_zero_or_pos i with rfl | hi
  · exact iff_of_true (.inl rfl) (.inl rfl)
  · have hbit : ∀ y : Nat, y.testBit (i - 1) = (y % 2 ^ i).testBit (i - 1) := fun y => by
      rw [Nat.testBit_mod_two_pow, decide_eq_true (show i - 1 < i by omega), Bool.true_and]
    rw [hbit (x + 2 ^ i), Nat.add_mod_right, ← hbit]

theorem count_empties (i : Nat) : Nat.count (Empties i) (2 ^ i) = if i = 0 then 1 else 2 ^ (i - 1) := by
  rcases i with _ | k
  · rfl
  · have hlow : Nat.count (Empties (k + 1)) (2 ^ k) = 0 := by
      refine Nat.count_iff_forall_not.mpr fun x hx h => ?_
      obtain ⟨-, h⟩ := h.resolve_left (by omega)
      rw [Nat.add_sub_cancel, Nat.testBit_lt_two_pow hx] at h
      exact absurd h Bool.false_ne_true
    have hhigh : Nat.count (fun j => Empties (k + 1) (2 ^ k + j)) (2 ^ k) = 2 ^ k := by
      refine Nat.count_iff_forall.mpr fun x hx => .inr ⟨by omega, ?_⟩
      rw [Nat.add_sub_cancel, Nat.testBit_two_pow_add_eq, Nat.testBit_lt_two_pow hx]
      rfl
    rw [if_neg (by omega), Nat.add_sub_cancel, pow_succ, Nat.mul_two, Nat.count_add, hlow, hhigh,
      Nat.zero_add]

/-- **Pools.** Reseed number `n` from `OnInitialize` on empties pool 0, and pool `i` when bit `i - 1` of
`n` is set: half of every `2 ^ i` reseeds that follow each other, and all of them for pool 0. -/
theorem pool_schedule (hash : ICryptHash η) (f : Factory η) (uses : List (Use η)) {i : Nat}
    (hi : i < entropyPools) :
    (∀ n < (exec (use hash) (onInitialize hash f) uses).2.length,
      (i ∈ (exec (use hash) (onInitialize hash f) uses).2.getD n [] ↔
        i = 0 ∨ 1 ≤ i ∧ n.testBit (i - 1))) ∧
    (∀ n, n + 2 ^ i ≤ (exec (use hash) (onInitialize hash f) uses).2.length →
      Nat.count (fun j => i ∈ (exec (use hash) (onInitialize hash f) uses).2.getD (n + j) []) (2 ^ i) =
        if i = 0 then 1 else 2 ^ (i - 1)) := by
  have hschedule := @exec_inv' _ _ _ (use hash) Schedule
    (fun f log u h => h.use u) uses (onInitialize hash f) [] ⟨rfl, by simp⟩
  rw [List.nil_append] at hschedule
  set log := (exec (use hash) (onInitialize hash f) uses).2 with hlog
  refine ⟨fun n hn => hschedule.emptied n hn i hi, fun n hn => ?_⟩
  rw [← count_empties i, ← count_window (empties_add i) n]
  exact le_antisymm
    (Nat.count_mono_left fun k hk => (hschedule.emptied (n + k) (by omega) i hi).mp)
    (Nat.count_mono_left fun k hk => (hschedule.emptied (n + k) (by omega) i hi).mpr)

/-- A hash that keeps nothing. -/
def zeroHash : ICryptHash Unit where
  beginKey _ _ := ()
  setKey _ _ := ()
  beginPRNG _ := ()
  crunch _ _ := ()
  endHash _ := ()
  generate n _ := (List.replicate n 0, ())
  length_generate _ _ := List.length_replicate

/-- The record of the first four reseeds. -/
def fourReseeds : List (List Nat) :=
  (exec (use zeroHash) (onInitialize zeroHash ⟨0, (), 0, fun _ => ()⟩)
    (List.replicate 4 (.reseed ()))).2

theorem pool_schedule_four :
    Nat.count (fun j => 2 ∈ fourReseeds.getD (0 + j) []) (2 ^ 2) = 2 :=
  (pool_schedule zeroHash ⟨0, (), 0, fun _ => ()⟩ (List.replicate 4 (.reseed ())) (i := 2)
    (by decide)).2 0 (by decide)

/-- Pool 2 is emptied by two of the first four reseeds, one after the other. -/
theorem pool_two_twice : Nat.count (fun j => 2 ∈ fourReseeds.getD j []) (2 ^ 2) ≠ 1 := by decide

end Pools

end Libcat.Crypt.Fortuna
