import Libcat.Lib.Bytes
import Libcat.Math.BitMath

/-!
# Skein: streaming

`Skein` as it absorbs a message: `BeginKey` or `SetKey` with one of the other `Begin` functions, then
`Crunch` in pieces, then `End`. The Threefish rounds are a function `rounds` of the state, the tweak
and the block; the state is of any type. `work` holds the bytes of the workspace in use.

- `absorb` is what the pieces should add up to: one full block per compression, the last one kept for
  the end, the byte position in the tweak advancing by the bytes in the block.
- `streams_iff` says when they do.
-/

namespace Libcat.Crypt

/-- The two sizes of state. -/
inductive Digest where
  | d256
  | d512
deriving DecidableEq

/-- `digest_bytes`. -/
def Digest.bytes : Digest → Nat
  | .d256 => 32
  | .d512 => 64

/-- `digest_bytes_shift` as `BeginKey` sets it. -/
def Digest.shift : Digest → Nat
  | .d256 => 5
  | .d512 => 6

def t1MaskFirst : u64 := 1 <<< 62
def t1MaskFinal : u64 := 1 <<< 63
def t1PosBlkType : Nat := 56

def blkTypeKey : u64 := 0
def blkTypeKdf : u64 := 16
def blkTypeNonce : u64 := 20
def blkTypeMsg : u64 := 48

/-- The chaining state and the tweak. -/
@[ext] structure Chain (σ : Type) where
  state : σ
  tweak0 : u64
  tweak1 : u64

structure Skein (σ : Type) where
  chain : Chain σ
  work : List u8
  digest : Digest
  digestBytesShift : Nat
  outputPrngMode : Bool

section Model

variable {σ : Type} (rounds : σ → u64 → u64 → List u8 → σ)

/-- One pass of the loop in `HashComputation256` and `HashComputation512`. -/
def compress (c : Chain σ) (byteCount : Nat) (block : List u8) : Chain σ :=
  let t0 := c.tweak0 + BitVec.ofNat 64 byteCount
  { state := rounds c.state t0 c.tweak1 block
    tweak0 := t0
    tweak1 := c.tweak1 &&& ~~~t1MaskFirst }

/-- `HashComputation256` and `HashComputation512`: a `do` loop that runs at least once. -/
def hashComputation (digest : Digest) (byteCount : Nat) : Nat → List u8 → Chain σ → Chain σ
  | blocks + 2, message, c =>
    hashComputation digest byteCount (blocks + 1) (message.drop digest.bytes)
      (compress rounds c byteCount (message.take digest.bytes))
  | _, message, c => compress rounds c byteCount (message.take digest.bytes)

/-- The tweak of a first block. -/
def firstTweak (blkType : u64) : u64 := t1MaskFirst ||| (blkType <<< t1PosBlkType)

/-- `BeginKey`; `initial` gives the initial states for the numbers of bits. -/
def beginKey (initial : Nat → σ) (bits : Nat) : Option (Skein σ) :=
  if bits ≤ 256 then
    some { chain := ⟨initial bits, 0, firstTweak blkTypeKey⟩
           work := []
           digest := .d256
           digestBytesShift := 5
           outputPrngMode := false }
  else if bits ≤ 512 then
    some { chain := ⟨initial bits, 0, firstTweak blkTypeKey⟩
           work := []
           digest := .d512
           digestBytesShift := 6
           outputPrngMode := false }
  else none

/-- `SetKey`: everything it copies from the parent. The shift is not among it. -/
def Skein.setKey (self parent : Skein σ) : Skein σ :=
  { self with
      chain := { self.chain with state := parent.chain.state }
      digest := parent.digest }

/-- `BeginMAC`, `BeginKDF` and `BeginPRNG`. -/
def beginBlk (blkType : u64) (prng : Bool) (s : Skein σ) : Skein σ :=
  { s with
      chain := { s.chain with tweak0 := 0, tweak1 := firstTweak blkType }
      work := []
      outputPrngMode := prng }

def beginMAC (s : Skein σ) : Skein σ := beginBlk blkTypeMsg false s
def beginKDF (s : Skein σ) : Skein σ := beginBlk blkTypeKdf false s
def beginPRNG (s : Skein σ) : Skein σ := beginBlk blkTypeNonce true s

/-- `Crunch` once the workspace is empty: whole blocks directly from the message, one kept back. -/
def crunchRest (s : Skein σ) (buffer : List u8) : Skein σ :=
  if s.digest.bytes < buffer.length then
    let eatBytes := buffer.length - 1
    let hashBlocks := eatBytes >>> s.digestBytesShift
    let blockBytes := hashBlocks <<< s.digestBytesShift
    let chain := hashComputation rounds s.digest blockBytes hashBlocks buffer s.chain
    -- `eat_bytes &= ~(digest_bytes-1)`, a power of two
    let eatBytes := eatBytes - eatBytes % s.digest.bytes
    { s with
        chain := chain
        work := buffer.drop eatBytes }
  else { s with work := buffer }

/-- `Crunch`. -/
def crunch (s : Skein σ) (buffer : List u8) : Skein σ :=
  if s.work.length ≠ 0 then
    if s.work.length + buffer.length ≤ s.digest.bytes then { s with work := s.work ++ buffer }
    else
      let copied := s.digest.bytes - s.work.length
      let block := s.work ++ buffer.take copied
      let chain := hashComputation rounds s.digest s.digest.bytes 1 block s.chain
      crunchRest rounds { s with chain := chain } (buffer.drop copied)
  else crunchRest rounds s buffer

/-- The workspace padded with zeroes. -/
def pad (digest : Digest) (work : List u8) : List u8 :=
  work ++ List.replicate (digest.bytes - work.length) 0

def Chain.setFinal (c : Chain σ) : Chain σ := { c with tweak1 := c.tweak1 ||| t1MaskFinal }

/-- `End`: the state and the tweak it leaves. -/
def endHash (s : Skein σ) : Chain σ :=
  hashComputation rounds s.digest s.work.length 1 (pad s.digest s.work) s.chain.setFinal

theorem Digest.bytes_pos (d : Digest) : 0 < d.bytes := by cases d <;> decide

/-- Absorbing a message, one full block per compression. -/
def absorb (digest : Digest) (message : List u8) (c : Chain σ) : Chain σ :=
  if digest.bytes < message.length then
    absorb digest (message.drop digest.bytes)
      (compress rounds c digest.bytes (message.take digest.bytes))
  else compress rounds c.setFinal message.length (pad digest message)
termination_by message.length
decreasing_by
  have := digest.bytes_pos
  rw [List.length_drop]
  omega

/-! ## The condition -/

/-- The bytes of a piece left when it has filled the workspace. -/
def beyond (digest : Digest) (used bytes : Nat) : Nat :=
  if used = 0 then bytes else used + bytes - digest.bytes

/-- The bytes in the workspace after a piece. -/
def usedAfter (digest : Digest) (used bytes : Nat) : Nat :=
  if used + bytes = 0 then 0 else (used + bytes - 1) % digest.bytes + 1

/-- No piece holds more than `limit` blocks beyond what fills the workspace. -/
def Fits (digest : Digest) (limit : Nat) : Nat → List (List u8) → Prop
  | _, [] => True
  | used, m :: pieces =>
    beyond digest used m.length ≤ limit * digest.bytes ∧
      Fits digest limit (usedAfter digest used m.length) pieces

instance Fits.decidable (digest : Digest) (limit : Nat) :
    ∀ used pieces, Decidable (Fits digest limit used pieces)
  | _, [] => inferInstanceAs (Decidable True)
  | used, m :: pieces =>
    have := Fits.decidable digest limit (usedAfter digest used m.length) pieces
    inferInstanceAs (Decidable (_ ∧ _))

/-- The functions that follow `SetKey`. -/
inductive Mode where
  | mac
  | kdf
  | prng

def Mode.start : Mode → Skein σ → Skein σ
  | .mac => beginMAC
  | .kdf => beginKDF
  | .prng => beginPRNG

/-- How an object is made ready to absorb. -/
inductive Ready where
  | beginKey (bits : Nat) (h : bits ≤ 512)
  | setKey (digest : Digest) (mode : Mode)

/-- `s` was made ready so, whatever its memory held before. -/
def Ready.Makes : Ready → Skein σ → Prop
  | .beginKey bits _, s => ∃ initial, Crypt.beginKey initial bits = some s
  | .setKey digest mode, s =>
    ∃ self parent, parent.digest = digest ∧ s = mode.start (Skein.setKey self parent)

/-- The blocks that one piece may hold beyond what fills the workspace. -/
def Ready.limit : Ready → Nat
  | .beginKey _ _ => 2
  | .setKey _ _ => 1

def Ready.digest : Ready → Digest
  | .beginKey bits _ => if bits ≤ 256 then .d256 else .d512
  | .setKey digest _ => digest

end Model

/-- However the pieces are cut, the state and the tweak are those of the whole message. -/
def Streams (r : Ready) (pieces : List (List u8)) : Prop :=
  ∀ (σ : Type) (rounds : σ → u64 → u64 → List u8 → σ) (s : Skein σ), r.Makes s →
    endHash rounds (pieces.foldl (crunch rounds) s) =
      absorb rounds r.digest pieces.flatten s.chain

/-! ## Absorbing -/

section Absorb

variable {σ : Type} {rounds : σ → u64 → u64 → List u8 → σ}

theorem absorb_step {d : Digest} {m : List u8} {c : Chain σ} (h : d.bytes < m.length) :
    absorb rounds d m c =
      absorb rounds d (m.drop d.bytes) (compress rounds c d.bytes (m.take d.bytes)) := by
  rw [absorb, if_pos h]

theorem absorb_last {d : Digest} {m : List u8} {c : Chain σ} (h : m.length ≤ d.bytes) :
    absorb rounds d m c = compress rounds c.setFinal m.length (pad d m) := by
  rw [absorb, if_neg (by omega)]

theorem pow_shift (d : Digest) : 2 ^ d.shift = d.bytes := by cases d <;> rfl

/-- What `Crunch` has made of the message `m`: absorbing more gives the same as from the start. -/
structure Absorbed (rounds : σ → u64 → u64 → List u8 → σ) (c₀ : Chain σ) (d : Digest) (m : List u8)
    (s : Skein σ) : Prop where
  digest : s.digest = d
  used : s.work.length = usedAfter d 0 m.length
  value : ∀ x, absorb rounds d (m ++ x) c₀ = absorb rounds d (s.work ++ x) s.chain

theorem usedAfter_le (d : Digest) (u n : Nat) : usedAfter d u n ≤ d.bytes := by
  unfold usedAfter
  split
  · omega
  · exact Nat.mod_lt _ d.bytes_pos

/-- Bytes in use count modulo the block, with a full block kept. -/
theorem usedAfter_usedAfter (d : Digest) (n k : Nat) :
    usedAfter d (usedAfter d 0 n) k = usedAfter d 0 (n + k) := by
  by_cases hn : n = 0
  · subst hn
    simp [usedAfter]
  · have hu : usedAfter d 0 n = (n - 1) % d.bytes + 1 := by simp [usedAfter, hn]
    have hl : usedAfter d ((n - 1) % d.bytes + 1) k = ((n - 1) % d.bytes + k) % d.bytes + 1 := by
      simp only [usedAfter]
      rw [if_neg (by omega), show (n - 1) % d.bytes + 1 + k - 1 = (n - 1) % d.bytes + k by omega]
    have hr : usedAfter d 0 (n + k) = (n - 1 + k) % d.bytes + 1 := by
      simp only [usedAfter]
      rw [if_neg (by omega), show 0 + (n + k) - 1 = n - 1 + k by omega]
    rw [hu, hl, hr, Nat.mod_add_mod]

theorem crunchRest_digest (s : Skein σ) (b : List u8) :
    (crunchRest rounds s b).digest = s.digest ∧
      (crunchRest rounds s b).digestBytesShift = s.digestBytesShift := by
  unfold crunchRest
  split <;> exact ⟨rfl, rfl⟩

/-- The size and the shift stay as they were made. -/
theorem crunch_digest (s : Skein σ) (b : List u8) :
    (crunch rounds s b).digest = s.digest ∧
      (crunch rounds s b).digestBytesShift = s.digestBytesShift := by
  unfold crunch
  split
  · split
    · exact ⟨rfl, rfl⟩
    · exact crunchRest_digest _ _
  · exact crunchRest_digest _ _

theorem length_crunchRest (s : Skein σ) (b : List u8) :
    (crunchRest rounds s b).work.length = usedAfter s.digest 0 b.length := by
  have hpos := s.digest.bytes_pos
  unfold crunchRest usedAfter
  split
  · next h =>
    rw [if_neg (by omega)]
    simp only [List.length_drop]
    have := Nat.mod_lt (b.length - 1) hpos
    have := Nat.mod_le (b.length - 1) s.digest.bytes
    rw [show 0 + b.length - 1 = b.length - 1 by omega]
    omega
  · next h =>
    change b.length = _
    split
    · omega
    · rw [Nat.mod_eq_of_lt (by omega)]
      omega

/-- The bytes in use after a piece, on every path. -/
theorem length_crunch (s : Skein σ) (b : List u8) (h : s.work.length ≤ s.digest.bytes) :
    (crunch rounds s b).work.length = usedAfter s.digest s.work.length b.length := by
  have hpos := s.digest.bytes_pos
  unfold crunch
  split
  · next hu =>
    split
    · next hle =>
      simp only [List.length_append, usedAfter]
      rw [if_neg (by omega), Nat.mod_eq_of_lt (by omega)]
      omega
    · next hgt =>
      rw [length_crunchRest]
      simp only [List.length_drop, usedAfter]
      rw [if_neg (by omega), if_neg (by omega),
        show s.work.length + b.length - 1 =
          0 + (b.length - (s.digest.bytes - s.work.length)) - 1 + s.digest.bytes by omega,
        Nat.add_mod_right]
  · next hu =>
    rw [length_crunchRest, show s.work.length = 0 by omega]

/-- The workspace and one more block: the fill path. -/
theorem absorb_fill {d : Digest} {work b x : List u8} {c : Chain σ} (hw : work.length ≤ d.bytes)
    (h : d.bytes < work.length + b.length) :
    absorb rounds d (work ++ b ++ x) c =
      absorb rounds d (b.drop (d.bytes - work.length) ++ x)
        (compress rounds c d.bytes (work ++ b.take (d.bytes - work.length))) := by
  have htake : (work ++ b ++ x).take d.bytes = work ++ b.take (d.bytes - work.length) := by
    rw [List.append_assoc, List.take_append, List.take_of_length_le hw,
      List.take_append_of_le_length (by omega)]
  have hdrop : (work ++ b ++ x).drop d.bytes = b.drop (d.bytes - work.length) ++ x := by
    rw [List.append_assoc, List.drop_append, List.drop_of_length_le hw, List.nil_append,
      List.drop_append_of_le_length (by omega)]
  rw [absorb_step (by simp only [List.length_append]; omega), htake, hdrop]

/-- One block that is hashed as such. -/
theorem hashComputation_one (d : Digest) (n : Nat) (block : List u8) (c : Chain σ)
    (h : block.length = d.bytes) :
    hashComputation rounds d n 1 block c = compress rounds c n block := by
  rw [hashComputation, List.take_of_length_le (by omega)]
  omega

/-- Directly from the message, one block at most. -/
theorem absorb_crunchRest {s : Skein σ} {b x : List u8}
    (h : b.length ≤ s.digest.bytes ∨
      (s.digestBytesShift = s.digest.shift ∧ b.length ≤ 2 * s.digest.bytes)) :
    absorb rounds s.digest (b ++ x) s.chain =
      absorb rounds s.digest ((crunchRest rounds s b).work ++ x) (crunchRest rounds s b).chain := by
  unfold crunchRest
  split
  · next hlt =>
    obtain hle | ⟨hshift, hle⟩ := h
    · omega
    have hone : (b.length - 1) / s.digest.bytes = 1 :=
      Nat.div_eq_of_lt_le (by omega) (by omega)
    have hblocks : (b.length - 1) >>> s.digestBytesShift = 1 := by
      rw [hshift, Nat.shiftRight_eq_div_pow, pow_shift, hone]
    have hbytes : 1 <<< s.digestBytesShift = s.digest.bytes := by
      rw [hshift, Nat.shiftLeft_eq, one_mul, pow_shift]
    have heat : b.length - 1 - (b.length - 1) % s.digest.bytes = s.digest.bytes := by
      have := Nat.div_add_mod (b.length - 1) s.digest.bytes
      rw [hone] at this
      omega
    simp only [hblocks, hbytes, heat]
    rw [absorb_step (by simp only [List.length_append]; omega),
      List.take_append_of_le_length (by omega), List.drop_append_of_le_length (by omega)]
    rfl
  · rfl

/-- A piece that fits. -/
theorem Absorbed.crunch {c₀ : Chain σ} {d : Digest} {m : List u8} {s : Skein σ} {limit : Nat}
    (h : Absorbed rounds c₀ d m s)
    (hlimit : limit = 1 ∨ (limit = 2 ∧ s.digestBytesShift = d.shift)) {b : List u8}
    (hb : beyond d s.work.length b.length ≤ limit * d.bytes) :
    Absorbed rounds c₀ d (m ++ b) (Crypt.crunch rounds s b) := by
  have hd := h.digest
  have hle : s.work.length ≤ s.digest.bytes := by
    rw [h.used, hd]
    exact usedAfter_le d 0 _
  refine ⟨(crunch_digest s b).1.trans hd, ?_, fun x => ?_⟩
  · rw [length_crunch s b hle, h.used, hd, usedAfter_usedAfter, List.length_append]
  rw [List.append_assoc, h.value, ← List.append_assoc]
  subst hd
  unfold beyond at hb
  unfold Crypt.crunch
  split
  · next hu =>
    rw [if_neg hu] at hb
    split
    · rfl
    · next hgt =>
      dsimp only
      rw [absorb_fill hle (by omega), hashComputation_one _ _ _ _ (by
        simp only [List.length_append, List.length_take]; omega)]
      generalize compress rounds s.chain s.digest.bytes _ = c
      refine absorb_crunchRest (s := { s with chain := c }) ?_
      simp only [List.length_drop]
      rcases hlimit with rfl | ⟨rfl, hshift⟩
      · exact .inl (by omega)
      · exact .inr ⟨hshift, by omega⟩
  · next hu =>
    have hnil : s.work = [] := List.length_eq_zero_iff.mp (by omega)
    rw [if_pos (by omega)] at hb
    rw [hnil, List.nil_append]
    refine absorb_crunchRest ?_
    rcases hlimit with rfl | ⟨rfl, hshift⟩
    · exact .inl (by omega)
    · exact .inr ⟨hshift, by omega⟩

/-- `End` is the last step of absorbing. -/
theorem endHash_eq {d : Digest} {s : Skein σ} (hd : s.digest = d) (h : s.work.length ≤ d.bytes) :
    endHash rounds s = absorb rounds d s.work s.chain := by
  subst hd
  rw [absorb_last h, endHash, hashComputation_one]
  simp only [pad, List.length_append, List.length_replicate]
  omega

/-- Pieces that fit, one after the other. -/
theorem Absorbed.run {c₀ : Chain σ} {d : Digest} {limit : Nat} (pieces : List (List u8)) :
    ∀ {m : List u8} {s : Skein σ}, Absorbed rounds c₀ d m s →
      (limit = 1 ∨ (limit = 2 ∧ s.digestBytesShift = d.shift)) →
      Fits d limit s.work.length pieces →
      Absorbed rounds c₀ d (m ++ pieces.flatten) (pieces.foldl (Crypt.crunch rounds) s) := by
  induction pieces with
  | nil => intro m s h _ _; simpa using h
  | cons b pieces ih =>
    intro m s h hlimit hfits
    have hle : s.work.length ≤ s.digest.bytes := by
      rw [h.used, h.digest]
      exact usedAfter_le d 0 _
    have := ih (h.crunch hlimit hfits.1) (by rw [(crunch_digest s b).2]; exact hlimit)
      (by rw [length_crunch s b hle, h.digest]; exact hfits.2)
    simpa only [List.foldl_cons, List.flatten_cons, List.append_assoc] using this

end Absorb

/-! ## Pieces that do not fit -/

/-- Rounds that keep a history of the tweaks and the blocks. -/
def record (h : List (u64 × u64 × List u8)) (t0 t1 : u64) (block : List u8) :
    List (u64 × u64 × List u8) :=
  h ++ [(t0, t1, block)]

theorem hashComputation_record (d : Digest) (n : Nat) : ∀ (blocks : Nat) (m : List u8)
    (c : Chain (List (u64 × u64 × List u8))),
    c.state ++ [(c.tweak0 + BitVec.ofNat 64 n, c.tweak1, m.take d.bytes)] <+:
      (hashComputation record d n blocks m c).state := by
  intro blocks
  induction blocks with
  | zero => intro m c; exact List.prefix_refl _
  | succ blocks ih =>
    intro m c
    cases blocks with
    | zero => exact List.prefix_refl _
    | succ blocks =>
      exact (List.prefix_append _ _).trans
        (ih (m.drop d.bytes) (compress record c n (m.take d.bytes)))

theorem absorb_record (d : Digest) (m : List u8) (c : Chain (List (u64 × u64 × List u8))) :
    c.state <+: (absorb record d m c).state := by
  induction m, c using absorb.induct record d with
  | case1 m c h ih =>
    rw [absorb_step h]
    exact (List.prefix_append _ _).trans ih
  | case2 m c h =>
    rw [absorb_last (by omega)]
    exact List.prefix_append _ _

theorem crunchRest_record (s : Skein (List (u64 × u64 × List u8))) (b : List u8) :
    s.chain.state <+: (crunchRest record s b).chain.state := by
  unfold crunchRest
  split
  · exact (List.prefix_append _ _).trans (hashComputation_record _ _ _ _ _)
  · exact List.prefix_refl _

theorem crunch_record (s : Skein (List (u64 × u64 × List u8))) (b : List u8) :
    s.chain.state <+: (crunch record s b).chain.state := by
  unfold crunch
  split
  · split
    · exact List.prefix_refl _
    · refine ((List.prefix_append _ _).trans (hashComputation_record _ _ _ _ _)).trans
        (crunchRest_record { s with chain := _ } _)
  · exact crunchRest_record _ _

theorem run_record (pieces : List (List u8)) : ∀ s : Skein (List (u64 × u64 × List u8)),
    s.chain.state <+: (endHash record (pieces.foldl (crunch record) s)).state := by
  induction pieces with
  | nil =>
    intro s
    exact (List.prefix_append s.chain.setFinal.state _).trans
      (hashComputation_record _ _ _ _ s.chain.setFinal)
  | cons b pieces ih => intro s; exact (crunch_record s b).trans (ih _)

/-- Two histories that part at some compression. -/
def Parts (l l' : List (u64 × u64 × List u8)) : Prop :=
  ∃ h e e', e ≠ e' ∧ h ++ [e] <+: l ∧ h ++ [e'] <+: l'

theorem Parts.ne {l l' : List (u64 × u64 × List u8)} (h : Parts l l') : l ≠ l' := by
  rintro rfl
  obtain ⟨h, e, e', hne, h1, h2⟩ := h
  have := (List.prefix_of_prefix_length_le h1 h2 (by simp)).eq_of_length (by simp)
  exact hne (by simpa using this)

theorem Parts.mono {l l' k k' : List (u64 × u64 × List u8)} (h : Parts l l') (hl : l <+: k)
    (hl' : l' <+: k') : Parts k k' := by
  obtain ⟨h, e, e', hne, h1, h2⟩ := h
  exact ⟨h, e, e', hne, h1.trans hl, h2.trans hl'⟩

/-- Blocks hashed directly with the wrong count of bytes. -/
theorem parts_crunchRest {s : Skein (List (u64 × u64 × List u8))} {b : List u8}
    (hlong : s.digest.bytes < b.length) (hb : b.length < 2 ^ 31)
    (hcount : (b.length - 1) >>> s.digestBytesShift <<< s.digestBytesShift ≠ s.digest.bytes)
    (x : List u8) :
    Parts (crunchRest record s b).chain.state (absorb record s.digest (b ++ x) s.chain).state := by
  refine ⟨s.chain.state,
    (s.chain.tweak0 +
      BitVec.ofNat 64 ((b.length - 1) >>> s.digestBytesShift <<< s.digestBytesShift),
      s.chain.tweak1, b.take s.digest.bytes),
    (s.chain.tweak0 + BitVec.ofNat 64 s.digest.bytes, s.chain.tweak1,
      (b ++ x).take s.digest.bytes), ?_, ?_, ?_⟩
  · intro he
    have h1 := congrArg BitVec.toNat (add_left_cancel (congrArg Prod.fst he))
    have hd : s.digest.bytes < 2 ^ 64 := by cases s.digest <;> decide
    have hs : (b.length - 1) >>> s.digestBytesShift <<< s.digestBytesShift < 2 ^ 64 := by
      rw [Nat.shiftRight_eq_div_pow, Nat.shiftLeft_eq]
      have := Nat.div_mul_le_self (b.length - 1) (2 ^ s.digestBytesShift)
      omega
    rw [BitVec.toNat_ofNat, BitVec.toNat_ofNat, Nat.mod_eq_of_lt hs, Nat.mod_eq_of_lt hd] at h1
    exact hcount h1
  · unfold crunchRest
    rw [if_pos hlong]
    exact hashComputation_record _ _ _ _ _
  · rw [absorb_step (by rw [List.length_append]; omega)]
    exact absorb_record _ _ (compress record s.chain s.digest.bytes ((b ++ x).take s.digest.bytes))

/-- The shift of an object made ready so, at its worst. -/
def worstShift (d : Digest) (limit : Nat) : Nat := if limit = 2 then d.shift else 31

theorem count_ne {d : Digest} {limit n : Nat} (hlimit : limit = 1 ∨ limit = 2)
    (h : limit * d.bytes < n) (hn : n < 2 ^ 31) :
    (n - 1) >>> worstShift d limit <<< worstShift d limit ≠ d.bytes := by
  have hpos := d.bytes_pos
  rw [Nat.shiftRight_eq_div_pow, Nat.shiftLeft_eq]
  unfold worstShift
  rcases hlimit with rfl | rfl
  · rw [if_neg (by decide), Nat.div_eq_of_lt (by omega)]
    omega
  · rw [if_pos rfl, pow_shift]
    have : 2 ≤ (n - 1) / d.bytes := (Nat.le_div_iff_mul_le hpos).mpr (by omega)
    have := Nat.mul_le_mul_right d.bytes this
    omega

/-- A piece that does not fit. -/
theorem Absorbed.parts {c₀ : Chain (List (u64 × u64 × List u8))} {d : Digest} {m : List u8}
    {s : Skein (List (u64 × u64 × List u8))} {limit : Nat} (h : Absorbed record c₀ d m s)
    (hlimit : limit = 1 ∨ limit = 2) (hshift : s.digestBytesShift = worstShift d limit)
    {b : List u8} (hlen : b.length < 2 ^ 31)
    (hb : limit * d.bytes < beyond d s.work.length b.length) (x : List u8) :
    Parts (Crypt.crunch record s b).chain.state (absorb record d (m ++ (b ++ x)) c₀).state := by
  have hd := h.digest
  have hle : s.work.length ≤ s.digest.bytes := by
    rw [h.used, hd]
    exact usedAfter_le d 0 _
  have hbytes : d.bytes ≤ limit * d.bytes := Nat.le_mul_of_pos_left _ (by omega)
  rw [h.value, ← List.append_assoc]
  subst hd
  unfold beyond at hb
  unfold Crypt.crunch
  split
  · next hu =>
    rw [if_neg hu] at hb
    rw [if_neg (by omega), absorb_fill hle (by omega)]
    dsimp only
    rw [hashComputation_one _ _ _ _ (by simp only [List.length_append, List.length_take]; omega)]
    generalize compress record s.chain s.digest.bytes _ = c
    refine parts_crunchRest (s := { s with chain := c }) ?_ ?_ ?_ x
    · simp only [List.length_drop]
      omega
    · simp only [List.length_drop]
      omega
    · simp only [List.length_drop, hshift]
      exact count_ne hlimit (by omega) (by omega)
  · next hu =>
    have hnil : s.work = [] := List.length_eq_zero_iff.mp (by omega)
    rw [if_pos (by omega)] at hb
    rw [hnil, List.nil_append]
    refine parts_crunchRest (by omega) hlen ?_ x
    rw [hshift]
    exact count_ne hlimit hb hlen

/-- The first piece that does not fit decides. -/
theorem Absorbed.run_parts {c₀ : Chain (List (u64 × u64 × List u8))} {d : Digest} {limit : Nat}
    (hlimit : limit = 1 ∨ limit = 2) (pieces : List (List u8)) :
    ∀ {m : List u8} {s : Skein (List (u64 × u64 × List u8))}, Absorbed record c₀ d m s →
      s.digestBytesShift = worstShift d limit → (∀ b ∈ pieces, b.length < 2 ^ 31) →
      ¬ Fits d limit s.work.length pieces →
      Parts (endHash record (pieces.foldl (Crypt.crunch record) s)).state
        (absorb record d (m ++ pieces.flatten) c₀).state := by
  induction pieces with
  | nil => intro m s _ _ _ hfits; exact (hfits trivial).elim
  | cons b pieces ih =>
    intro m s h hshift hlen hfits
    by_cases hb : beyond d s.work.length b.length ≤ limit * d.bytes
    · have hle : s.work.length ≤ s.digest.bytes := by
        rw [h.used, h.digest]
        exact usedAfter_le d 0 _
      have hgood : limit = 1 ∨ (limit = 2 ∧ s.digestBytesShift = d.shift) := by
        rcases hlimit with rfl | rfl
        · exact .inl rfl
        · exact .inr ⟨rfl, hshift⟩
      have := ih (h.crunch hgood hb) ((crunch_digest s b).2.trans hshift)
        (fun b' hb' => hlen b' (List.mem_cons_of_mem _ hb'))
        (fun hf => hfits ⟨hb, by rwa [length_crunch s b hle, h.digest] at hf⟩)
      simpa only [List.foldl_cons, List.flatten_cons, List.append_assoc] using this
    · rw [List.foldl_cons, List.flatten_cons]
      exact (h.parts hlimit hshift (hlen b (by simp)) (by omega) pieces.flatten).mono
        (run_record pieces _) (List.prefix_refl _)

/-! ## The result -/

/-- An object made ready has its workspace empty. -/
theorem Ready.Makes.absorbed {σ : Type} {rounds : σ → u64 → u64 → List u8 → σ} {r : Ready}
    {s : Skein σ} (h : r.Makes s) : Absorbed rounds s.chain r.digest [] s ∧ s.work = [] ∧
      (r.limit = 1 ∨ (r.limit = 2 ∧ s.digestBytesShift = r.digest.shift)) := by
  have hnil : ∀ {d : Digest}, s.digest = d → s.work = [] → Absorbed rounds s.chain d [] s :=
    fun hd hw => ⟨hd, by simp [hw, usedAfter], fun x => by rw [hw]⟩
  cases r with
  | beginKey bits hbits =>
    obtain ⟨initial, h⟩ := h
    unfold Crypt.beginKey at h
    simp only [Ready.digest, Ready.limit]
    by_cases hsmall : bits ≤ 256
    · rw [if_pos hsmall] at h
      obtain rfl := (Option.some.inj h).symm
      exact ⟨hnil (by rw [if_pos hsmall]) rfl, rfl, .inr ⟨trivial, by rw [if_pos hsmall]; rfl⟩⟩
    · rw [if_neg hsmall, if_pos hbits] at h
      obtain rfl := (Option.some.inj h).symm
      exact ⟨hnil (by rw [if_neg hsmall]) rfl, rfl, .inr ⟨trivial, by rw [if_neg hsmall]; rfl⟩⟩
  | setKey d mode =>
    obtain ⟨self, parent, hd, rfl⟩ := h
    cases mode <;> exact ⟨hnil hd rfl, rfl, .inl rfl⟩

/-- Each way of making ready has an object whose shift is the worst there is. -/
theorem Ready.exists_makes (r : Ready) : ∃ s : Skein (List (u64 × u64 × List u8)), r.Makes s ∧
    s.digestBytesShift = worstShift r.digest r.limit := by
  cases r with
  | beginKey bits hbits =>
    by_cases hsmall : bits ≤ 256
    · exact ⟨_, ⟨fun _ => [], if_pos hsmall⟩, by simp [Ready.digest, Ready.limit, hsmall, worstShift,
        Digest.shift]⟩
    · exact ⟨_, ⟨fun _ => [], (if_neg hsmall).trans (if_pos hbits)⟩, by
        simp [Ready.digest, Ready.limit, hsmall, worstShift, Digest.shift]⟩
  | setKey d mode =>
    refine ⟨_, ⟨⟨⟨[], 0, 0⟩, [], d, 31, false⟩, ⟨⟨[], 0, 0⟩, [], d, 31, false⟩, rfl, rfl⟩, ?_⟩
    cases mode <;> rfl

theorem not_streams {r : Ready} {pieces : List (List u8)} (hlen : ∀ b ∈ pieces, b.length < 2 ^ 31)
    (hfits : ¬ Fits r.digest r.limit 0 pieces) : ¬ Streams r pieces := by
  intro h
  obtain ⟨s, hmakes, hshift⟩ := r.exists_makes
  obtain ⟨habs, hnil, hgood⟩ := hmakes.absorbed
  have hlimit : r.limit = 1 ∨ r.limit = 2 := hgood.imp id And.left
  have hparts := habs.run_parts hlimit pieces hshift hlen (by rw [hnil]; exact hfits)
  rw [List.nil_append] at hparts
  exact hparts.ne (congrArg Chain.state (h _ record s hmakes))

theorem streams_of_fits {r : Ready} {pieces : List (List u8)}
    (hfits : Fits r.digest r.limit 0 pieces) : Streams r pieces := by
  intro σ rounds s hmakes
  obtain ⟨habs, hnil, hgood⟩ := @Ready.Makes.absorbed _ rounds _ _ hmakes
  have hrun := habs.run pieces hgood (by rw [hnil]; exact hfits)
  rw [List.nil_append] at hrun
  have hle : (pieces.foldl (crunch rounds) s).work.length ≤ r.digest.bytes := by
    rw [hrun.used]
    exact usedAfter_le _ _ _
  have := hrun.value []
  rw [List.append_nil, List.append_nil] at this
  rw [this, endHash_eq hrun.digest hle]

/-- **Streaming.** Pieces add up to the whole message, whatever the rounds are, exactly if no piece
holds more blocks than `r.limit` beyond what fills the workspace: two for an object that `BeginKey`
has made ready, one after `SetKey`, which leaves the shift as it was. -/
theorem streams_iff (r : Ready) (pieces : List (List u8)) (hlen : ∀ b ∈ pieces, b.length < 2 ^ 31) :
    Streams r pieces ↔ Fits r.digest r.limit 0 pieces :=
  ⟨fun h => by_contra fun hfits => not_streams hlen hfits h, streams_of_fits⟩

/-- Pieces with an empty one and one that straddles two blocks. -/
theorem streams_straddling :
    Streams (.beginKey 256 (by decide))
      [List.replicate 40 1, [], List.replicate 64 2, List.replicate 9 3] :=
  (streams_iff _ _ (by decide)).mpr (by decide)

/-- Three blocks at once advance the byte position too far; after `SetKey` two are too many. -/
theorem not_streams_blocks :
    ¬ Streams (.beginKey 256 (by decide)) [List.replicate 96 0] ∧
      ¬ Streams (.setKey .d256 .mac) [List.replicate 33 0] :=
  ⟨not_streams (by decide) (by decide), not_streams (by decide) (by decide)⟩

end Libcat.Crypt
