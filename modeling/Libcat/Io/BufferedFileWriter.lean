import Mathlib.Tactic

/-!
# The buffered file writer

`BufferedFileWriter` cuts a stream of `Write` calls into buckets and posts each bucket to
`AsyncFile::Write`. The model follows `Open` and `Write`; the allocator and the answers of
`AsyncFile::Write` are an environment. A buffer's identity is its number since the file was opened,
in the order in which the allocator hands buffers out.

- `Invariant`: what the writer has done after any number of bytes, in terms of the bytes it copied.
- `copied`: the bytes a call really copies. A pass never moves `in_buffer`, so the part of a call
  behind a bucket boundary is read again from the call's first byte.
- `Stuck`: the state after a final partial bucket, posted and still at the head of the cache set.
-/

namespace Libcat.Io.BufferedFileWriter

/-! ## The writer -/

structure WriteBuffer where
  id : Nat
  data : List UInt8
deriving DecidableEq, Repr

/-- A request that `AsyncFile::Write` accepted, with the data the buffer had then. -/
structure Posted where
  id : Nat
  offset : Nat
  data : List UInt8
deriving DecidableEq, Repr

/-- The code around the writer: the data areas of the buffers in the `k`-th batch asked for, and
the answer to the request made after `k` accepted ones. -/
structure Env where
  acquireBatch : Nat → Nat → List (List UInt8)
  asyncWrite : Nat → Bool

structure Writer where
  bucketSize : Nat
  bucketCount : Nat
  cacheSet : List WriteBuffer
  cacheBucketOffset : Nat
  fileOffset : Nat
  fileSize : Nat
  batches : Nat
  buffers : Nat
  posted : List Posted
deriving DecidableEq, Repr

/-- The size `Open` gives to `AsyncFile::SetSize`. -/
def roundedFileSize (bucketSize fileSize : Nat) : Nat :=
  let overflowBytes := fileSize % 2 ^ 32 &&& (bucketSize - 1)
  if overflowBytes ≠ 0 then (fileSize + (bucketSize - overflowBytes)) % 2 ^ 64 else fileSize

/-- The writer after `OnInitialize` and `Open`. Neither sets `_cache_bucket_offset`. -/
def openFile (bucketSize bucketCount bucketOffset fileSize : Nat) : Writer where
  bucketSize := bucketSize
  bucketCount := bucketCount
  cacheSet := []
  cacheBucketOffset := bucketOffset
  fileOffset := 0
  fileSize := fileSize
  batches := 0
  buffers := 0
  posted := []

def memcpy (data : List UInt8) (offset : Nat) (src : List UInt8) (n : Nat) : List UInt8 :=
  data.take offset ++ src.take n ++ data.drop (offset + n)

def memset (data : List UInt8) (offset n : Nat) : List UInt8 :=
  data.take offset ++ List.replicate n 0 ++ data.drop (offset + n)

/-- Acquires a batch when the cache set is empty. -/
def ensureBuffer (env : Env) (s : Writer) : Writer :=
  match s.cacheSet with
  | [] =>
    let batch := env.acquireBatch s.batches s.bucketCount
    { s with
      cacheSet := batch.mapIdx fun i data => ⟨s.buffers + i, data⟩
      cacheBucketOffset := 0
      batches := s.batches + 1
      buffers := s.buffers + batch.length }
  | _ :: _ => s

/-- `AsyncFile::Write` of the whole bucket at the file offset. -/
def post (s : Writer) (out : WriteBuffer) : List Posted :=
  s.posted ++ [⟨out.id, s.fileOffset, out.data⟩]

/-- One pass of the loop of `Write`: whether the call goes on, the bytes left, the writer. -/
def writePass (env : Env) (inBuffer : List UInt8) (bytes : Nat) (s₀ : Writer) :
    Bool × Nat × Writer :=
  let s := ensureBuffer env s₀
  match s.cacheSet with
  | [] => (false, bytes, s)
  | out :: rest =>
    let writeBytes := min bytes (s.bucketSize - s.cacheBucketOffset)
    let filled := { out with data := memcpy out.data s.cacheBucketOffset inBuffer writeBytes }
    let offset := s.cacheBucketOffset + writeBytes
    let s₁ := { s with cacheSet := filled :: rest, cacheBucketOffset := offset }
    let left := bytes - writeBytes
    if s.bucketSize ≤ offset then
      if env.asyncWrite s.posted.length then
        (true, left, { s₁ with
          posted := post s₁ filled
          cacheSet := rest
          cacheBucketOffset := 0
          fileOffset := (s.fileOffset + s.bucketSize) % 2 ^ 64 })
      else (false, left, s₁)
    else if (s.fileSize + 2 ^ 64 - s.fileOffset) % 2 ^ 64 ≤ offset then
      let zeroed := { filled with data := memset filled.data offset (s.bucketSize - offset) }
      -- the posted buffer stays at the head of the cache set
      let s₂ := { s₁ with cacheSet := zeroed :: rest }
      if env.asyncWrite s.posted.length then (true, left, { s₂ with posted := post s₂ zeroed })
      else (false, left, s₂)
    else (true, left, s₁)

def writeLoop (env : Env) (inBuffer : List UInt8) : Nat → Nat → Writer → Bool × Writer
  | 0, bytes, s => (decide (bytes = 0), s)
  | fuel + 1, bytes, s =>
    if bytes = 0 then (true, s)
    else
      let r := writePass env inBuffer bytes s
      if r.1 then writeLoop env inBuffer fuel r.2.1 r.2.2 else (false, r.2.2)

/-- `Write`. A pass consumes at least one byte, so `inBuffer.length` passes are enough. -/
def write (env : Env) (s : Writer) (inBuffer : List UInt8) : Bool × Writer :=
  writeLoop env inBuffer inBuffer.length inBuffer.length s

/-- Consecutive calls: whether all of them returned true, and the writer after the last. -/
def writeAll (env : Env) : Writer → List (List UInt8) → Bool × Writer
  | s, [] => (true, s)
  | s, c :: cs =>
    let r := write env s c
    let q := writeAll env r.2 cs
    (r.1 && q.1, q.2)

/-! ## What has been copied -/

/-- The bytes of the `i`-th bucket of `W`, as they are posted. -/
def bucket (b : Nat) (W : List UInt8) (i : Nat) : Posted :=
  ⟨i, i * b, (W.drop (i * b)).take b⟩

theorem bucket_append {b : Nat} {W : List UInt8} (V : List UInt8) {i : Nat}
    (hi : (i + 1) * b ≤ W.length) : bucket b (W ++ V) i = bucket b W i := by
  have hle : i * b + b ≤ W.length := by
    rw [← Nat.succ_mul]
    exact hi
  unfold bucket
  congr 1
  rw [List.drop_append_of_le_length (by omega), List.take_append_of_le_length]
  rw [List.length_drop]
  omega

theorem map_bucket_append {b : Nat} {W : List UInt8} (V : List UInt8) {k : Nat}
    (hk : k * b ≤ W.length) :
    (List.range k).map (bucket b (W ++ V)) = (List.range k).map (bucket b W) := by
  apply List.map_congr_left
  intro i hi
  apply bucket_append
  exact (Nat.mul_le_mul_right b (List.mem_range.mp hi)).trans hk

theorem flatten_buckets {b : Nat} {W : List UInt8} {k : Nat} (hk : k * b ≤ W.length) :
    (((List.range k).map (bucket b W)).map Posted.data).flatten = W.take (k * b) := by
  induction k with
  | zero => simp
  | succ k ih =>
    have hle : k * b ≤ W.length := (Nat.mul_le_mul_right b (Nat.le_succ k)).trans hk
    rw [List.range_succ, List.map_append, List.map_append, List.flatten_append, ih hle]
    simp only [List.map_cons, List.map_nil, List.flatten_cons, List.flatten_nil, List.append_nil,
      bucket]
    rw [Nat.succ_mul, List.take_add]

/-- The state of the writer after it copied the bytes `W` of a file of `n` bytes, with every full
bucket posted. -/
structure Invariant (b n : Nat) (W : List UInt8) (s : Writer) : Prop where
  bucketSize : s.bucketSize = b
  fileSize : s.fileSize = n
  fileOffset : s.fileOffset = W.length / b * b
  offset : ∀ out rest, s.cacheSet = out :: rest → s.cacheBucketOffset = W.length % b
  filled : ∀ out rest, s.cacheSet = out :: rest →
    out.data.take (W.length % b) = W.drop (W.length / b * b)
  empty : s.cacheSet = [] → W.length % b = 0
  data_length : ∀ w ∈ s.cacheSet, w.data.length = b
  ids : s.cacheSet.map WriteBuffer.id = List.range' (W.length / b) s.cacheSet.length
  buffers : s.buffers = W.length / b + s.cacheSet.length
  posted : s.posted = (List.range (W.length / b)).map (bucket b W)

/-- The state after the final partial bucket was posted: it is still in the cache set. -/
structure Stuck (s : Writer) : Prop where
  again : ∃ p ∈ s.posted, ∃ w ∈ s.cacheSet, p.id = w.id

/-- Allocation and `AsyncFile::Write` succeed. -/
structure Succeeds (env : Env) (b : Nat) : Prop where
  acquire : ∀ k count, env.acquireBatch k count ≠ []
  data_length : ∀ k count, ∀ data ∈ env.acquireBatch k count, data.length = b
  write : ∀ k, env.asyncWrite k = true

theorem invariant_openFile (b count offset n : Nat) :
    Invariant b n [] (openFile b count offset n) := by
  constructor <;> simp [openFile]

theorem Invariant.ensureBuffer {env : Env} {b n : Nat} {W : List UInt8} {s : Writer}
    (he : Succeeds env b) (h : Invariant b n W s) :
    Invariant b n W (ensureBuffer env s) ∧ (BufferedFileWriter.ensureBuffer env s).cacheSet ≠ [] := by
  unfold BufferedFileWriter.ensureBuffer
  cases hc : s.cacheSet with
  | cons out rest =>
    simp only
    exact ⟨h, by simp [hc]⟩
  | nil =>
    have hzero := h.empty hc
    have hbuf := h.buffers
    rw [hc, List.length_nil, Nat.add_zero] at hbuf
    have hdrop : W.drop (W.length / b * b) = [] := by
      apply List.drop_eq_nil_of_le
      have := Nat.div_add_mod' W.length b
      omega
    refine ⟨⟨h.bucketSize, h.fileSize, h.fileOffset, ?_, ?_, ?_, ?_, ?_, ?_, h.posted⟩, ?_⟩
    · intro out rest _
      exact hzero.symm
    · intro out rest _
      rw [hzero, hdrop, List.take_zero]
    · intro _
      exact hzero
    · intro w hw
      obtain ⟨i, hi, rfl⟩ := List.mem_mapIdx.mp hw
      exact he.data_length _ _ _ (List.getElem_mem hi)
    · apply List.ext_getElem
      · simp
      · intro i h₁ h₂
        simp [List.getElem_range', hbuf]
    · simp [hbuf]
    · simpa using he.acquire _ _

/-! ## One pass -/

section Pass

variable {env : Env} {b n bytes : Nat} {W c : List UInt8} {s : Writer} {out : WriteBuffer}
  {rest : List WriteBuffer}

/-- The buffer at the head after the copy: the bytes of its bucket so far, then what it had. -/
theorem Invariant.memcpy_eq (h : Invariant b n W s) (hc : s.cacheSet = out :: rest) (m : Nat) :
    memcpy out.data s.cacheBucketOffset c m =
      W.drop (W.length / b * b) ++ c.take m ++ out.data.drop (W.length % b + m) := by
  unfold memcpy
  rw [h.offset out rest hc, h.filled out rest hc]

theorem Invariant.head_id (h : Invariant b n W s) (hc : s.cacheSet = out :: rest) :
    out.id = W.length / b ∧ rest.map WriteBuffer.id = List.range' (W.length / b + 1) rest.length := by
  have hids := h.ids
  rw [hc, List.map_cons, List.length_cons, List.range'_succ, List.cons.injEq] at hids
  exact hids

/-- A pass that fills the bucket posts it and drops it from the cache set. -/
theorem Invariant.full (h : Invariant b n W s) (hb : 0 < b) (hn : n < 2 ^ 64)
    (hc : s.cacheSet = out :: rest) {m : Nat} (hm : W.length % b + m = b) (hle : m ≤ c.length)
    (hroom : W.length + m ≤ n) :
    Invariant b n (W ++ c.take m) { s with
      posted := post s ⟨out.id, memcpy out.data s.cacheBucketOffset c m⟩
      cacheSet := rest
      cacheBucketOffset := 0
      fileOffset := (s.fileOffset + s.bucketSize) % 2 ^ 64 } := by
  have hsplit := Nat.div_add_mod' W.length b
  have hlen : (W ++ c.take m).length = (W.length / b + 1) * b := by
    rw [List.length_append, List.length_take, Nat.min_eq_left hle, Nat.succ_mul]
    omega
  have hdiv : (W ++ c.take m).length / b = W.length / b + 1 := by
    rw [hlen, Nat.mul_div_cancel _ hb]
  have hmod : (W ++ c.take m).length % b = 0 := by
    rw [hlen, Nat.mul_mod_left]
  have hdrop : (W ++ c.take m).drop ((W.length / b + 1) * b) = [] := by
    apply List.drop_eq_nil_of_le
    rw [hlen]
  have hdata : memcpy out.data s.cacheBucketOffset c m = W.drop (W.length / b * b) ++ c.take m := by
    have hnil : out.data.drop b = [] := by
      apply List.drop_eq_nil_of_le
      rw [h.data_length out (by simp [hc])]
    rw [h.memcpy_eq hc, hm, hnil, List.append_nil]
  obtain ⟨hid, hrest⟩ := h.head_id hc
  have hbuf := h.buffers
  rw [hc, List.length_cons] at hbuf
  refine ⟨h.bucketSize, h.fileSize, ?_, ?_, ?_, ?_, ?_, ?_, ?_, ?_⟩
  · show (s.fileOffset + s.bucketSize) % 2 ^ 64 = _
    rw [hdiv, h.fileOffset, h.bucketSize, Nat.mod_eq_of_lt (by omega), Nat.succ_mul]
  · intro _ _ _
    exact hmod.symm
  · intro _ _ _
    rw [hmod, hdiv, hdrop, List.take_zero]
  · intro _
    exact hmod
  · intro w hw
    exact h.data_length w (by rw [hc]; exact List.mem_cons_of_mem _ hw)
  · rw [hdiv]
    exact hrest
  · rw [hdiv]
    show s.buffers = _ + rest.length
    omega
  · show post s _ = _
    have hlast : bucket b (W ++ c.take m) (W.length / b) =
        ⟨out.id, s.fileOffset, memcpy out.data s.cacheBucketOffset c m⟩ := by
      unfold bucket
      rw [hid, h.fileOffset, hdata, List.drop_append_of_le_length (Nat.div_mul_le_self _ _),
        List.take_of_length_le]
      rw [List.length_append, List.length_drop, List.length_take, Nat.min_eq_left hle]
      omega
    unfold post
    rw [hdiv, List.range_succ, List.map_append, map_bucket_append _ (Nat.div_mul_le_self _ _),
      List.map_singleton, hlast, h.posted]

/-- A pass that stays inside the bucket only moves the bucket offset. -/
theorem Invariant.partial_bucket (h : Invariant b n W s) (hc : s.cacheSet = out :: rest) {m : Nat}
    (hm : W.length % b + m < b) (hle : m ≤ c.length) :
    Invariant b n (W ++ c.take m) { s with
      cacheSet := ⟨out.id, memcpy out.data s.cacheBucketOffset c m⟩ :: rest
      cacheBucketOffset := s.cacheBucketOffset + m } := by
  have hsplit := Nat.div_add_mod' W.length b
  have hlen : (W ++ c.take m).length = (W.length % b + m) + b * (W.length / b) := by
    rw [List.length_append, List.length_take, Nat.min_eq_left hle, Nat.mul_comm b]
    omega
  have hdiv : (W ++ c.take m).length / b = W.length / b := by
    rw [hlen, Nat.add_mul_div_left _ _ (by omega), Nat.div_eq_of_lt hm, Nat.zero_add]
  have hmod : (W ++ c.take m).length % b = W.length % b + m := by
    rw [hlen, Nat.add_mul_mod_self_left, Nat.mod_eq_of_lt hm]
  have hhead : (W.drop (W.length / b * b)).length = W.length % b := by
    rw [List.length_drop]
    omega
  have hdata := h.memcpy_eq (c := c) hc m
  obtain ⟨hid, hrest⟩ := h.head_id hc
  have hbuf := h.buffers
  rw [hc, List.length_cons] at hbuf
  have hfill : (W.drop (W.length / b * b) ++ c.take m).length = W.length % b + m := by
    rw [List.length_append, hhead, List.length_take, Nat.min_eq_left hle]
  refine ⟨h.bucketSize, h.fileSize, ?_, ?_, ?_, ?_, ?_, ?_, ?_, ?_⟩
  · rw [hdiv]
    exact h.fileOffset
  · intro _ _ _
    show s.cacheBucketOffset + m = _
    rw [hmod, h.offset out rest hc]
  · intro out' rest' heq
    rw [List.cons.injEq] at heq
    rw [← heq.1, hmod, hdiv]
    show List.take _ (memcpy _ _ _ _) = _
    rw [hdata, List.take_append_of_le_length hfill.ge, List.take_of_length_le hfill.le,
      List.drop_append_of_le_length (Nat.div_mul_le_self _ _)]
  · intro heq
    cases heq
  · intro w hw
    rcases List.mem_cons.mp hw with rfl | hw
    · show (memcpy _ _ _ _).length = b
      rw [hdata, List.length_append, hfill, List.length_drop, h.data_length out (by simp [hc])]
      omega
    · exact h.data_length w (by rw [hc]; exact List.mem_cons_of_mem _ hw)
  · rw [hdiv, List.map_cons, List.length_cons, List.range'_succ, hrest, hid]
  · rw [hdiv]
    show s.buffers = _ + (rest.length + 1)
    omega
  · rw [hdiv, map_bucket_append _ (Nat.div_mul_le_self _ _)]
    exact h.posted

theorem writePass_spec (he : Succeeds env b) (hb : 0 < b) (hn : n < 2 ^ 64)
    (h : Invariant b n W s) (hpos : 0 < bytes) (hle : bytes ≤ c.length)
    (hroom : W.length + bytes ≤ n) {m : Nat} (hm : m = min bytes (b - W.length % b)) :
    ∃ s', writePass env c bytes s = (true, bytes - m, s') ∧
      if W.length + m = n ∧ ¬ b ∣ n then Stuck s' else Invariant b n (W ++ c.take m) s' := by
  obtain ⟨h', hne⟩ := h.ensureBuffer he
  have hsplit := Nat.div_add_mod' W.length b
  have hr := Nat.mod_lt W.length hb
  unfold writePass
  generalize BufferedFileWriter.ensureBuffer env s = t at h' hne
  cases hc : t.cacheSet with
  | nil => exact absurd hc hne
  | cons out rest =>
    have hoff := h'.offset out rest hc
    have hmin : min bytes (t.bucketSize - t.cacheBucketOffset) = m := by
      rw [hm, h'.bucketSize, hoff]
    simp only [hc, hmin, he.write, if_true]
    by_cases hfull : t.bucketSize ≤ t.cacheBucketOffset + m
    · rw [if_pos hfull]
      have hmb : W.length % b + m = b := by
        rw [h'.bucketSize, hoff] at hfull
        omega
      refine ⟨_, rfl, ?_⟩
      rw [if_neg]
      · exact h'.full hb hn hc hmb (by omega) (by omega)
      · rintro ⟨hend, hnd⟩
        apply hnd
        rw [← hend]
        refine ⟨W.length / b + 1, ?_⟩
        rw [Nat.mul_comm, Nat.succ_mul]
        omega
    · rw [if_neg hfull]
      have hmb : W.length % b + m < b := by
        rw [h'.bucketSize, hoff] at hfull
        omega
      have hfo := h'.fileOffset
      by_cases hend : (t.fileSize + 2 ^ 64 - t.fileOffset) % 2 ^ 64 ≤ t.cacheBucketOffset + m
      · rw [if_pos hend]
        refine ⟨_, rfl, ?_⟩
        rw [h'.fileSize, hoff] at hend
        have hlen : W.length + m = n := by omega
        rw [if_pos]
        · refine ⟨_, List.mem_append_right _ (List.mem_singleton_self _), _, List.mem_cons_self, rfl⟩
        · refine ⟨hlen, ?_⟩
          rintro ⟨k, hk⟩
          have : (W.length + m) % b = W.length % b + m := by
            rw [Nat.add_mod, Nat.mod_eq_of_lt (show m < b by omega), Nat.mod_eq_of_lt hmb]
          rw [hlen, hk, Nat.mul_mod_right] at this
          omega
      · rw [if_neg hend]
        refine ⟨_, rfl, ?_⟩
        rw [h'.fileSize, hoff] at hend
        rw [if_neg (by rintro ⟨hlen, -⟩; omega)]
        exact h'.partial_bucket hc hmb (by omega)

end Pass

/-! ## Calls -/

/-- Where a call that starts at position `p` reads its `i`-th byte from: the pass that copies it
starts at the call's first byte again. -/
def sourceIndex (b p i : Nat) : Nat :=
  if p % b + i < b then i else (p + i) % b

/-- The bytes a call at position `p` copies. -/
def copied (b p : Nat) (c : List UInt8) : List UInt8 :=
  (List.range c.length).map fun i => c.getD (sourceIndex b p i) 0

def copiedAll (b : Nat) : Nat → List (List UInt8) → List UInt8
  | _, [] => []
  | p, c :: cs => copied b p c ++ copiedAll b (p + c.length) cs

@[simp] theorem length_copied (b p : Nat) (c : List UInt8) : (copied b p c).length = c.length := by
  simp [copied]

/-- The part of `copied` that one pass adds, from byte `j` of the call on. -/
theorem copied_take_add {b p j m : Nat} {c : List UInt8} (hjm : j + m ≤ c.length)
    (hj : j = 0 ∧ p % b + m ≤ b ∨ (p + j) % b = 0 ∧ b ≤ p % b + j ∧ m ≤ b) :
    (copied b p c).take (j + m) = (copied b p c).take j ++ c.take m := by
  rw [List.take_add]
  congr 1
  apply List.ext_getElem
  · simp only [List.length_take, List.length_drop, length_copied]
    omega
  · intro i h₁ h₂
    simp only [List.length_take] at h₂
    have hsrc : sourceIndex b p (j + i) = i := by
      unfold sourceIndex
      rcases hj with ⟨rfl, hm⟩ | ⟨hmod, hge, hm⟩
      · rw [if_pos (by omega), Nat.zero_add]
      · rw [if_neg (by omega), ← Nat.add_assoc, Nat.add_mod, hmod, Nat.zero_add, Nat.mod_mod,
          Nat.mod_eq_of_lt (by omega)]
    have hi : i < c.length := by omega
    simp [copied, hsrc, hi]

/-- The writer after the bytes `W`: the invariant, or stuck once a partial bucket ended the file. -/
def After (b n : Nat) (W : List UInt8) (s : Writer) : Prop :=
  if W.length = n ∧ ¬ b ∣ n then Stuck s else Invariant b n W s

section Calls

variable {env : Env} {b n : Nat}

theorem After.invariant {W : List UInt8} {s : Writer} (h : After b n W s) (hlt : W.length < n) :
    Invariant b n W s := by
  unfold After at h
  rwa [if_neg (by rintro ⟨heq, -⟩; omega)] at h

theorem writeLoop_spec (he : Succeeds env b) (hb : 0 < b) (hn : n < 2 ^ 64) {W c : List UInt8}
    (hroom : W.length + c.length ≤ n) :
    ∀ fuel j s, j ≤ c.length → c.length - j ≤ fuel →
      (j = 0 ∨ j = c.length ∨ (W.length + j) % b = 0 ∧ b ≤ W.length % b + j) →
      After b n (W ++ (copied b W.length c).take j) s →
      ∃ s', writeLoop env c fuel (c.length - j) s = (true, s') ∧
        After b n (W ++ copied b W.length c) s' := by
  intro fuel
  induction fuel with
  | zero =>
    intro j s hj hf _ h
    have hjc : j = c.length := by omega
    subst hjc
    refine ⟨s, by simp [writeLoop], ?_⟩
    rwa [List.take_of_length_le (by simp)] at h
  | succ fuel ih =>
    intro j s hj hf halign h
    unfold writeLoop
    by_cases hz : c.length - j = 0
    · have hjc : j = c.length := by omega
      subst hjc
      refine ⟨s, by simp, ?_⟩
      rwa [List.take_of_length_le (by simp)] at h
    · rw [if_neg hz]
      have hlen : (W ++ (copied b W.length c).take j).length = W.length + j := by
        rw [List.length_append, List.length_take, length_copied, Nat.min_eq_left hj]
      have hmodlt := Nat.mod_lt (W.length + j) hb
      have hinv := h.invariant (by omega)
      -- the pass copies up to the end of the bucket or of the call
      obtain ⟨s', hpass, hafter⟩ := writePass_spec (m := min (c.length - j) (b - (W.length + j) % b))
        he hb hn hinv (show 0 < c.length - j by omega) (c := c) (by omega) (by omega) (by rw [hlen])
      rw [hpass]
      have hnext : After b n
          (W ++ (copied b W.length c).take (j + min (c.length - j) (b - (W.length + j) % b))) s' := by
        have htake : (copied b W.length c).take (j + min (c.length - j) (b - (W.length + j) % b)) =
            (copied b W.length c).take j ++ c.take (min (c.length - j) (b - (W.length + j) % b)) := by
          apply copied_take_add (by omega)
          rcases halign with rfl | hjc | ⟨hmod, hge⟩
          · left
            refine ⟨rfl, ?_⟩
            rw [Nat.add_zero] at hmodlt ⊢
            omega
          · omega
          · right
            exact ⟨hmod, hge, by omega⟩
        rw [htake, ← List.append_assoc]
        unfold After
        rw [List.length_append, List.length_take, hlen, Nat.min_eq_left (by omega)]
        rwa [hlen] at hafter
      obtain ⟨s'', hloop, hdone⟩ := ih _ s' (by omega) (by omega) (by
        by_cases hlast : c.length - j ≤ b - (W.length + j) % b
        · right
          left
          omega
        · right
          right
          rw [Nat.min_eq_right (by omega)]
          have hdm := Nat.div_add_mod' (W.length + j) b
          have hwdm := Nat.div_add_mod' W.length b
          have hval : W.length + (j + (b - (W.length + j) % b)) = ((W.length + j) / b + 1) * b := by
            rw [Nat.succ_mul]
            omega
          refine ⟨by rw [hval, Nat.mul_mod_left], ?_⟩
          rcases halign with rfl | hjc | ⟨hmod, hge⟩
          · simp only [Nat.add_zero] at *
            omega
          · omega
          · omega) hnext
      refine ⟨s'', ?_, hdone⟩
      rw [← hloop]
      simp only [if_true]
      congr 1
      omega

theorem write_spec (he : Succeeds env b) (hb : 0 < b) (hn : n < 2 ^ 64) {W c : List UInt8}
    (hroom : W.length + c.length ≤ n) {s : Writer} (h : After b n W s) :
    ∃ s', write env s c = (true, s') ∧ After b n (W ++ copied b W.length c) s' := by
  unfold write
  have := writeLoop_spec he hb hn hroom c.length 0 s (Nat.zero_le _) (by omega) (Or.inl rfl)
    (by simpa using h)
  simpa using this

theorem writeAll_spec (he : Succeeds env b) (hb : 0 < b) (hn : n < 2 ^ 64) :
    ∀ (cs : List (List UInt8)) (W : List UInt8) (s : Writer), W.length + cs.flatten.length ≤ n →
      After b n W s →
      ∃ s', writeAll env s cs = (true, s') ∧ After b n (W ++ copiedAll b W.length cs) s' := by
  intro cs
  induction cs with
  | nil =>
    intro W s _ h
    exact ⟨s, rfl, by simpa [copiedAll] using h⟩
  | cons c cs ih =>
    intro W s hroom h
    rw [List.flatten_cons, List.length_append] at hroom
    obtain ⟨s₁, hw, h₁⟩ := write_spec he hb hn (show W.length + c.length ≤ n by omega) h
    obtain ⟨s₂, ha, h₂⟩ := ih (W ++ copied b W.length c) s₁ (by
      rw [List.length_append, length_copied]
      omega) h₁
    refine ⟨s₂, ?_, ?_⟩
    · simp only [writeAll, hw, ha, Bool.and_self]
    · rw [List.length_append, length_copied, List.append_assoc] at h₂
      exact h₂

end Calls

theorem length_copiedAll (b p : Nat) (cs : List (List UInt8)) :
    (copiedAll b p cs).length = cs.flatten.length := by
  induction cs generalizing p with
  | nil => rfl
  | cons c cs ih => simp [copiedAll, ih]

/-! ## The file that is written -/

/-- The blocks posted are those of the file: one for each bucket below the rounded size, at its own
offset, with the content and then zeroes; no buffer is posted twice. -/
structure WritesFile (b : Nat) (content : List UInt8) (s : Writer) : Prop where
  offsets : s.posted.map Posted.offset =
    (List.range (roundedFileSize b content.length / b)).map (· * b)
  lengths : ∀ p ∈ s.posted, p.data.length = b
  contents : (s.posted.map Posted.data).flatten =
    content ++ List.replicate (roundedFileSize b content.length - content.length) 0
  once : (s.posted.map Posted.id).Nodup

/-- No posted buffer is in the cache set. -/
def Detached (s : Writer) : Prop :=
  ∀ p ∈ s.posted, ∀ w ∈ s.cacheSet, p.id ≠ w.id

theorem roundedFileSize_of_dvd {k n : Nat} (hk : k < 32) (h : 2 ^ k ∣ n) :
    roundedFileSize (2 ^ k) n = n := by
  have hzero : n % 2 ^ 32 &&& (2 ^ k - 1) = 0 := by
    rw [Nat.and_two_pow_sub_one_eq_mod, Nat.mod_mod_of_dvd _ (Nat.pow_dvd_pow 2 hk.le)]
    exact Nat.mod_eq_zero_of_dvd h
  unfold roundedFileSize
  simp only [hzero, ne_eq, not_true_eq_false, if_false]

section File

variable {b n : Nat} {W : List UInt8} {s : Writer}

theorem Invariant.detached (h : Invariant b n W s) : Detached s := by
  intro p hp w hw heq
  rw [h.posted, List.mem_map] at hp
  obtain ⟨i, hi, rfl⟩ := hp
  have hid : w.id ∈ List.range' (W.length / b) s.cacheSet.length := by
    rw [← h.ids]
    exact List.mem_map_of_mem hw
  have hge := (List.mem_range'_1.mp hid).1
  have hlt := List.mem_range.mp hi
  have hi' : i = w.id := heq
  omega

theorem Stuck.not_detached (h : Stuck s) : ¬ Detached s := by
  intro hd
  obtain ⟨p, hp, w, hw, heq⟩ := h.again
  exact hd p hp w hw heq

/-- At the end of a file of whole buckets, the blocks are those of the bytes that were copied. -/
theorem Invariant.contents_eq (h : Invariant b n W s) (hd : b ∣ W.length) :
    (s.posted.map Posted.data).flatten = W := by
  have hwhole : W.length / b * b = W.length := Nat.div_mul_cancel hd
  rw [h.posted, flatten_buckets hwhole.le, hwhole, List.take_length]

theorem Invariant.writesFile {k : Nat} (h : Invariant (2 ^ k) W.length W s) (hk : k < 32)
    (hd : 2 ^ k ∣ W.length) : WritesFile (2 ^ k) W s := by
  have hwhole : W.length / 2 ^ k * 2 ^ k = W.length := Nat.div_mul_cancel hd
  constructor
  case offsets =>
    rw [roundedFileSize_of_dvd hk hd, h.posted, List.map_map]
    rfl
  case lengths =>
    intro p hp
    rw [h.posted, List.mem_map] at hp
    obtain ⟨i, hi, rfl⟩ := hp
    have hle : (i + 1) * 2 ^ k ≤ W.length :=
      (Nat.mul_le_mul_right _ (List.mem_range.mp hi)).trans hwhole.le
    rw [Nat.succ_mul] at hle
    show ((W.drop (i * 2 ^ k)).take (2 ^ k)).length = 2 ^ k
    rw [List.length_take, List.length_drop]
    omega
  case contents =>
    rw [h.contents_eq hd, roundedFileSize_of_dvd hk hd, Nat.sub_self, List.replicate_zero,
      List.append_nil]
  case once =>
    rw [h.posted, List.map_map]
    show ((List.range (W.length / 2 ^ k)).map fun i => i).Nodup
    rw [List.map_id']
    exact List.nodup_range

end File

/-- A call at position `p` whose bytes repeat: every byte behind the call's first bucket boundary
equals the byte as far from the call's start as it is from its own bucket's start. A call that does
not cross a boundary has no such byte. -/
def Repeats (b p : Nat) (c : List UInt8) : Prop :=
  ∀ i < c.length, b ≤ p % b + i → c.getD i 0 = c.getD ((p + i) % b) 0

instance (b p : Nat) (c : List UInt8) : Decidable (Repeats b p c) :=
  inferInstanceAs (Decidable (∀ i < c.length, _ → _))

def RepeatsAtBuckets (b : Nat) : Nat → List (List UInt8) → Prop
  | _, [] => True
  | p, c :: cs => Repeats b p c ∧ RepeatsAtBuckets b (p + c.length) cs

instance RepeatsAtBuckets.decidable (b : Nat) :
    ∀ p cs, Decidable (RepeatsAtBuckets b p cs)
  | _, [] => inferInstanceAs (Decidable True)
  | p, c :: cs =>
    have := RepeatsAtBuckets.decidable b (p + c.length) cs
    inferInstanceAs (Decidable (_ ∧ _))

theorem map_getD_range (c : List UInt8) : (List.range c.length).map (fun i => c.getD i 0) = c := by
  apply List.ext_getElem
  · simp
  · intro i h₁ h₂
    simp [h₂]

theorem copied_eq_iff (b p : Nat) (c : List UInt8) : copied b p c = c ↔ Repeats b p c := by
  have hsame : copied b p c = c ↔ ∀ i ∈ List.range c.length,
      c.getD (sourceIndex b p i) 0 = c.getD i 0 := by
    rw [← List.map_inj_left, map_getD_range]
    rfl
  rw [hsame]
  constructor
  · intro h i hi hge
    have := h i (List.mem_range.mpr hi)
    unfold sourceIndex at this
    rw [if_neg (by omega)] at this
    exact this.symm
  · intro h i hi
    unfold sourceIndex
    by_cases hlt : p % b + i < b
    · rw [if_pos hlt]
    · rw [if_neg hlt]
      exact (h i (List.mem_range.mp hi) (by omega)).symm

theorem copiedAll_eq_iff (b p : Nat) (cs : List (List UInt8)) :
    copiedAll b p cs = cs.flatten ↔ RepeatsAtBuckets b p cs := by
  induction cs generalizing p with
  | nil => simp [copiedAll, RepeatsAtBuckets]
  | cons c cs ih =>
    unfold copiedAll RepeatsAtBuckets
    rw [List.flatten_cons, ← ih, ← copied_eq_iff]
    constructor
    · intro h
      exact List.append_inj h (length_copied b p c)
    · rintro ⟨h₁, h₂⟩
      rw [h₁, h₂]

/-- Where a sequence of calls from `Open` on leaves the writer. -/
theorem writeAll_openFile {env : Env} {b : Nat} (he : Succeeds env b) (hb : 0 < b)
    (count offset : Nat) {n : Nat} (hn : n < 2 ^ 64) (calls : List (List UInt8))
    (hle : calls.flatten.length ≤ n) :
    ∃ s, writeAll env (openFile b count offset n) calls = (true, s) ∧
      After b n (copiedAll b 0 calls) s := by
  have hinit : After b n [] (openFile b count offset n) := by
    unfold After
    split
    · rename_i h
      exact absurd (h.1 ▸ dvd_zero _) h.2
    · exact invariant_openFile _ _ _ _
  simpa using writeAll_spec he hb hn calls [] _ (by simpa using hle) hinit

/-- The writer does its work exactly for files of whole buckets written by calls whose bytes repeat
behind every bucket boundary that they cross. -/
theorem buffered_file_writer (env : Env) (k count offset : Nat) (hk : k < 32)
    (he : Succeeds env (2 ^ k)) (content : List UInt8) (hn : content.length < 2 ^ 64)
    (calls : List (List UInt8)) (hcalls : calls.flatten = content) :
    ((writeAll env (openFile (2 ^ k) count offset content.length) calls).1 = true ∧
      WritesFile (2 ^ k) content
        (writeAll env (openFile (2 ^ k) count offset content.length) calls).2 ∧
      ∀ j, Detached
        (writeAll env (openFile (2 ^ k) count offset content.length) (calls.take j)).2) ↔
    2 ^ k ∣ content.length ∧ RepeatsAtBuckets (2 ^ k) 0 calls := by
  have hrun := fun cs h => writeAll_openFile he (Nat.two_pow_pos k) count offset hn cs h
  obtain ⟨s, hall, hafter⟩ := hrun calls (by rw [hcalls])
  have hlen : (copiedAll (2 ^ k) 0 calls).length = content.length := by
    rw [length_copiedAll, hcalls]
  unfold After at hafter
  rw [← copiedAll_eq_iff, hcalls, hall]
  constructor
  · rintro ⟨-, hfile, hdet⟩
    have hlast := hdet calls.length
    rw [List.take_length, hall] at hlast
    by_cases hd : 2 ^ k ∣ content.length
    · rw [if_neg (by simp [hd])] at hafter
      have hcont := hfile.contents
      rw [hafter.contents_eq (by rwa [hlen]), roundedFileSize_of_dvd hk hd, Nat.sub_self,
        List.replicate_zero, List.append_nil] at hcont
      exact ⟨hd, hcont⟩
    · rw [if_pos ⟨hlen, hd⟩] at hafter
      exact absurd hlast hafter.not_detached
  · rintro ⟨hd, hcopied⟩
    rw [if_neg (by simp [hd]), hcopied] at hafter
    refine ⟨rfl, hafter.writesFile hk hd, ?_⟩
    intro j
    have hprefix : (calls.take j).flatten.length ≤ content.length := by
      rw [← hcalls]
      exact (List.take_sublist j calls).flatten.length_le
    obtain ⟨sj, hj, haj⟩ := hrun (calls.take j) hprefix
    unfold After at haj
    rw [if_neg (by simp [hd])] at haj
    rw [hj]
    exact haj.detached

/-- Buckets of 65536 bytes, with a heap that never runs out. -/
def plentyEnv : Env where
  acquireBatch := fun _ count => List.replicate (max 1 count) (List.replicate (2 ^ 16) 0)
  asyncWrite := fun _ => true

theorem plentyEnv_succeeds : Succeeds plentyEnv (2 ^ 16) := by
  constructor
  · intro k count h
    have := congrArg List.length h
    simp only [plentyEnv, List.length_replicate, List.length_nil] at this
    omega
  · intro k count data hd
    rw [List.eq_of_mem_replicate hd, List.length_replicate]
  · intro k
    rfl

/-- One bucket in two calls. -/
theorem buffered_file_writer_one_bucket :
    WritesFile (2 ^ 16) (List.replicate 65535 1 ++ [2])
      (writeAll plentyEnv (openFile (2 ^ 16) 16 0 65536) [List.replicate 65535 1, [2]]).2 := by
  have hlen : (List.replicate 65535 (1 : UInt8) ++ [2]).length = 65536 := by
    rw [List.length_append, List.length_replicate, List.length_singleton]
  have h := (buffered_file_writer plentyEnv 16 16 0 (by decide) plentyEnv_succeeds
    (List.replicate 65535 1 ++ [2]) (by rw [hlen]; decide) [List.replicate 65535 1, [2]]
    (by rw [List.flatten_cons, List.flatten_singleton])).mpr
    ⟨by rw [hlen]; decide, by
      refine ⟨?_, ?_, trivial⟩
      · intro i hi hge
        rw [List.length_replicate] at hi
        omega
      · intro i hi hge
        simp only [List.length_singleton, List.length_replicate] at hi hge
        omega⟩
  rw [hlen] at h
  exact h.2.1

/-- Two different buckets in one call do not repeat. -/
theorem not_repeats_two_buckets {b : Nat} (hb : 0 < b) :
    ¬ Repeats b 0 (List.replicate b 0 ++ List.replicate b 1) := by
  intro h
  have := h b (by simp [hb]) (by simp)
  simp [hb] at this

/-- A file of one byte leaves its posted buffer in the cache set, and a file of two buckets written
by one call gets its first bucket twice. -/
theorem buffered_file_writer_fails :
    (¬ Detached (writeAll plentyEnv (openFile (2 ^ 16) 16 0 1) [[1]]).2) ∧
      ¬ WritesFile (2 ^ 16) (List.replicate (2 ^ 16) 0 ++ List.replicate (2 ^ 16) 1)
        (writeAll plentyEnv (openFile (2 ^ 16) 16 0 (2 ^ 17))
          [List.replicate (2 ^ 16) 0 ++ List.replicate (2 ^ 16) 1]).2 := by
  have hb : 0 < 2 ^ 16 := by decide
  constructor
  · obtain ⟨s, hall, hafter⟩ := writeAll_openFile plentyEnv_succeeds hb 16 0
      (show 1 < 2 ^ 64 by decide) [[1]] (by simp)
    unfold After at hafter
    rw [length_copiedAll, if_pos (by decide)] at hafter
    rw [hall]
    exact hafter.not_detached
  · have hnot := not_repeats_two_buckets hb
    have hlen : (List.replicate (2 ^ 16) (0 : UInt8) ++ List.replicate (2 ^ 16) 1).length =
        2 ^ 17 := by
      rw [List.length_append, List.length_replicate, List.length_replicate]
      decide
    generalize List.replicate (2 ^ 16) (0 : UInt8) ++ List.replicate (2 ^ 16) 1 = content at hnot hlen ⊢
    obtain ⟨s, hall, hafter⟩ := writeAll_openFile plentyEnv_succeeds hb 16 0
      (show 2 ^ 17 < 2 ^ 64 by decide) [content] (by rw [List.flatten_singleton, hlen])
    have hd : 2 ^ 16 ∣ 2 ^ 17 := by decide
    unfold After at hafter
    rw [if_neg (fun h => h.2 hd)] at hafter
    rw [hall]
    intro hfile
    have hcont := hfile.contents
    rw [hafter.contents_eq (by rwa [length_copiedAll, List.flatten_singleton, hlen]), hlen,
      roundedFileSize_of_dvd (by decide) hd, Nat.sub_self, List.replicate_zero, List.append_nil] at hcont
    have hrep : RepeatsAtBuckets (2 ^ 16) 0 [content] := by
      rw [← copiedAll_eq_iff, List.flatten_singleton]
      exact hcont
    exact hnot hrep.1

end Libcat.Io.BufferedFileWriter
