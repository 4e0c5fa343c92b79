import Libcat.Crypt.Tunnel

/-!
# The stream cipher

`ChaChaOutput` enciphers a message in blocks of sixteen words and the rest of it word by word and
byte by byte, and counts the blocks in two words of its state.

- `crypt_eq`: all of that is an exclusive or with one key stream, which depends on the state only.
- `counter_iterate`: the two words are one counter, so no block of the key stream comes from a state that
  another block of the same key came from.
- `chacha_stream`: what follows for messages, `tunnel_cipher`: the tunnel with this cipher is the tunnel that
  is modelled over any primitives.
-/

namespace Libcat.Crypt.ChaCha

open Bytes

section Model

abbrev State := Vector u32 16

def chachaRounds : Nat := 14

def initialState : Vector u32 12 :=
  #v[0x6a09e667, 0xbb67ae85, 0x3c6ef372, 0xa54ff53a, 0x510e527f, 0x9b05688c, 0x1f83d9ab, 0x5be0cd19,
    0x27b70a85, 0x2e1b2138, 0x4d2c6dfc, 0x53380d13]

/-- `ChaChaKey::Set`. -/
def setKey (key : List u8) : Vector u32 12 :=
  let words := min 48 key.length / 4
  Vector.ofFn fun ii => if ii < words then
      initialState[ii] ^^^ ofBytes ((key.drop (4 * ii)).take 4)
    else initialState[ii]

/-- `QUARTERROUND`. -/
def quarterRound (a b c d : Fin 16) (x : State) : State :=
  let x := x.set a (x[a] + x[b])
  let x := x.set d ((x[d] ^^^ x[a]).rotateLeft 16)
  let x := x.set c (x[c] + x[d])
  let x := x.set b ((x[b] ^^^ x[c]).rotateLeft 12)
  let x := x.set a (x[a] + x[b])
  let x := x.set d ((x[d] ^^^ x[a]).rotateLeft 8)
  let x := x.set c (x[c] + x[d])
  x.set b ((x[b] ^^^ x[c]).rotateLeft 7)

/-- Two rounds of `CHACHA_MIX`. -/
def doubleRound (x : State) : State :=
  let x := quarterRound 3 7 11 15 (quarterRound 2 6 10 14 (quarterRound 1 5 9 13 (quarterRound 0 4 8 12 x)))
  quarterRound 3 4 9 14 (quarterRound 2 7 8 13 (quarterRound 1 6 11 12 (quarterRound 0 5 10 15 x)))

def mixLoop : Nat → State → State
  | 0, x => x
  | n + 1, x => mixLoop n (doubleRound x)

/-- `CHACHA_MIX`. -/
def mix (x : State) : State := mixLoop (chachaRounds / 2) x

/-- `if (!++state[12]) state[13]++`. -/
def nextBlock (s : State) : State :=
  let s := s.set 12 (s[12] + 1)
  if s[12] = 0 then s.set 13 (s[13] + 1) else s

/-- `x[ii] + state[ii]`. -/
def blockWord (s : State) (ii : Nat) : u32 := (mix s)[ii]?.getD 0 + s[ii]?.getD 0

/-- `ChaChaOutput::GenerateNeutralKeyStream`. -/
def generateNeutralKeyStream (s : State) : State × List u8 :=
  (nextBlock s, (List.range 16).flatMap fun jj => toBytes 4 (blockWord (nextBlock s) jj))

/-- `ChaChaOutput::ReKey`. -/
def reKey (key : Vector u32 12) (iv : u64) : State :=
  Vector.ofFn fun ii =>
    if h : ii < 12 then key[ii]
    else if ii = 14 then iv.setWidth 32
    else if ii = 15 then (iv >>> 32).setWidth 32
    else 0

/-- `out32[ii] = in32[ii] ^ getLE(x[ii] + state[ii])` for the first words. -/
def wordLoop (s : State) (input : List u8) (words : Nat) : List u8 :=
  (List.range words).flatMap fun ii =>
    toBytes 4 ((ofBytes ((input.drop (4 * ii)).take 4) : u32) ^^^ blockWord s ii)

/-- The switch over the bytes that are left. -/
def finalBytes (finalKey : u32) : List u8 → List u8
  | [a] => [a ^^^ finalKey.setWidth 8]
  | [a, b] => [a ^^^ finalKey.setWidth 8, b ^^^ (finalKey >>> 8).setWidth 8]
  | [a, b, c] =>
    [a ^^^ finalKey.setWidth 8, b ^^^ (finalKey >>> 8).setWidth 8, c ^^^ (finalKey >>> 16).setWidth 8]
  | _ => []

/-- `ChaChaOutput::Crypt`. -/
def crypt (s : State) (input : List u8) : State × List u8 :=
  if 64 ≤ input.length then
    let s := nextBlock s
    let r := crypt s (input.drop 64)
    (r.1, wordLoop s input 16 ++ r.2)
  else if input ≠ [] then
    let s := nextBlock s
    let words := input.length / 4
    (s, wordLoop s input words ++ finalBytes (blockWord s words) (input.drop (4 * words)))
  else (s, [])
  termination_by input.length
  decreasing_by
    rw [List.length_drop]
    omega

end Model

/-! ## The key stream -/

section KeyStream

/-- Byte `k` of the block that a state gives. -/
def blockByte (s : State) (k : Nat) : u8 := (blockWord s (k / 4) >>> (8 * (k % 4))).setWidth 8

/-- Byte `k` of the key stream that starts after a state. -/
def keyStream (s : State) (k : Nat) : u8 := blockByte (nextBlock^[k / 64 + 1] s) (k % 64)

/-- A message under a key stream. -/
def xorStream (ks : Nat → u8) (m : List u8) : List u8 := m.mapIdx fun k b => b ^^^ ks k

variable {ks : Nat → u8} {m n : List u8}

theorem xorStream_append : xorStream ks (m ++ n) =
    xorStream ks m ++ xorStream (fun k => ks (k + m.length)) n := by
  unfold xorStream
  exact List.mapIdx_append

theorem xorStream_congr {ks' : Nat → u8} (h : ∀ k < m.length, ks k = ks' k) :
    xorStream ks m = xorStream ks' m := by
  unfold xorStream
  refine List.ext_getElem (by simp) fun k hk _ => ?_
  rw [List.length_mapIdx] at hk
  rw [List.getElem_mapIdx, List.getElem_mapIdx, h k hk]

theorem keyStream_add (s : State) (k : Nat) : keyStream s (k + 64) = keyStream (nextBlock s) k := by
  unfold keyStream
  rw [Nat.add_mod_right, Nat.add_div_right k (by decide), ← Function.iterate_succ_apply]

/-- Within the first block. -/
theorem keyStream_of_lt (s : State) {k : Nat} (hk : k < 64) :
    keyStream s k = blockByte (nextBlock s) k := by
  unfold keyStream
  rw [Nat.div_eq_of_lt hk, Nat.mod_eq_of_lt hk]
  rfl

end KeyStream

/-! ## Enciphering -/

section Enciphering

/-- A word under a word of the key stream. -/
theorem toBytes_xor_word (a b c d : u8) (w : u32) :
    toBytes 4 ((ofBytes [a, b, c, d] : u32) ^^^ w) =
      xorStream (fun k => (w >>> (8 * k)).setWidth 8) [a, b, c, d] := by
  unfold xorStream
  simp only [toBytes, ofBytes, List.mapIdx_cons, List.mapIdx_nil, List.cons.injEq, and_true]
  refine ⟨?_, ?_, ?_, ?_⟩
  all_goals
    refine BitVec.eq_of_getLsbD_eq fun i hi => ?_
    have h1 : i < 32 := by omega
    have h2 : 8 + i < 32 := by omega
    have h3 : 8 + (8 + i) < 32 := by omega
    have h4 : 8 + (8 + (8 + i)) < 32 := by omega
    have e3 : 16 + i = 8 + (8 + i) := by omega
    have e4 : 24 + i = 8 + (8 + (8 + i)) := by omega
    simp [hi, h1, h2, h3, h4, e3, e4]

theorem wordLoop_succ (s : State) (input : List u8) (n : Nat) :
    wordLoop s input (n + 1) = wordLoop s input n ++
      toBytes 4 ((ofBytes ((input.drop (4 * n)).take 4) : u32) ^^^ blockWord s n) := by
  unfold wordLoop
  rw [List.range_succ, List.flatMap_append, List.flatMap_singleton]

theorem blockByte_word (s : State) (n : Nat) {k : Nat} (hk : k < 4) :
    blockByte s (k + 4 * n) = (blockWord s n >>> (8 * k)).setWidth 8 := by
  unfold blockByte
  rw [show (k + 4 * n) / 4 = n by omega, show (k + 4 * n) % 4 = k by omega]

/-- Whole words. -/
theorem wordLoop_eq (s : State) (input : List u8) {n : Nat} (hn : 4 * n ≤ input.length) :
    wordLoop s input n = xorStream (blockByte s) (input.take (4 * n)) := by
  induction n with
  | zero => rfl
  | succ n ih =>
    have hlen : ((input.drop (4 * n)).take 4).length = 4 := by
      rw [List.length_take, List.length_drop]
      omega
    obtain ⟨a, b, c, d, hfour⟩ := List.length_eq_four.mp hlen
    rw [wordLoop_succ, ih (by omega), Nat.mul_succ, List.take_add, hfour, xorStream_append,
      toBytes_xor_word, List.length_take, Nat.min_eq_left (by omega)]
    refine congrArg _ (xorStream_congr fun k hk => ?_)
    exact (blockByte_word s n hk).symm

/-- The bytes behind the words. -/
theorem finalBytes_eq (s : State) (n : Nat) {rest : List u8} (hrest : rest.length < 4) :
    finalBytes (blockWord s n) rest = xorStream (fun k => blockByte s (k + 4 * n)) rest := by
  have h0 := blockByte_word s n (by decide : 0 < 4)
  have h1 := blockByte_word s n (by decide : 1 < 4)
  have h2 := blockByte_word s n (by decide : 2 < 4)
  unfold xorStream
  cases rest with
  | nil => rfl
  | cons a rest =>
    cases rest with
    | nil => simp only [finalBytes, List.mapIdx_cons, List.mapIdx_nil, h0]; rfl
    | cons b rest =>
      cases rest with
      | nil => simp only [finalBytes, List.mapIdx_cons, List.mapIdx_nil, h0, h1]; rfl
      | cons c rest =>
        cases rest with
        | nil => simp only [finalBytes, List.mapIdx_cons, List.mapIdx_nil, h0, h1, h2]; rfl
        | cons d rest => exact absurd hrest (by simp)

/-- **Words, bytes and blocks agree with one exclusive or.** -/
theorem crypt_eq (s : State) (input : List u8) :
    crypt s input =
      (nextBlock^[(input.length + 63) / 64] s, xorStream (keyStream s) input) := by
  induction hn : input.length using Nat.strong_induction_on generalizing s input with
  | _ n ih =>
    subst hn
    rw [crypt]
    by_cases hblock : 64 ≤ input.length
    · have hdrop : (input.drop 64).length = input.length - 64 := List.length_drop
      rw [if_pos hblock]
      dsimp only
      rw [ih _ (by omega) (nextBlock s) (input.drop 64) rfl, hdrop]
      refine Prod.ext ?_ ?_
      · show nextBlock^[_] (nextBlock s) = _
        rw [← Function.iterate_succ_apply]
        congr 1
        omega
      · show wordLoop _ _ _ ++ xorStream _ _ = _
        rw [wordLoop_eq (nextBlock s) input (by omega)]
        conv_rhs => rw [← List.take_append_drop 64 input, xorStream_append]
        rw [List.length_take, Nat.min_eq_left hblock]
        refine congrArg₂ _ (xorStream_congr fun k hk => ?_) (xorStream_congr fun k _ => ?_)
        · rw [List.length_take] at hk
          exact (keyStream_of_lt s (by omega)).symm
        · exact (keyStream_add s k).symm
    · rw [if_neg hblock]
      by_cases hempty : input = []
      · rw [if_neg (not_not.mpr hempty), hempty]
        rfl
      · have hpos := List.length_pos_iff.mpr hempty
        rw [if_pos hempty]
        dsimp only
        have hrest : (input.drop (4 * (input.length / 4))).length < 4 := by
          rw [List.length_drop]
          omega
        rw [wordLoop_eq (nextBlock s) input (by omega), finalBytes_eq _ _ hrest,
          show (input.length + 63) / 64 = 1 by omega]
        refine Prod.ext rfl ?_
        show _ = xorStream (keyStream s) input
        conv_rhs => rw [← List.take_append_drop (4 * (input.length / 4)) input, xorStream_append]
        rw [List.length_take, Nat.min_eq_left (by omega)]
        refine congrArg₂ _ (xorStream_congr fun k hk => ?_) (xorStream_congr fun k hk => ?_)
        · rw [List.length_take] at hk
          exact (keyStream_of_lt s (by omega)).symm
        · rw [List.length_drop] at hk
          exact (keyStream_of_lt s (by omega)).symm

end Enciphering

/-! ## The counter -/

section Counter

/-- The number of blocks in the two words that count them. -/
def counter (s : State) : Nat := s[13].toNat * 2 ^ 32 + s[12].toNat

end Counter

/-! ## The tunnel's cipher -/

section Cipher

/-- The block of `GenerateNeutralKeyStream` is the first one of the key stream. -/
theorem generate_eq (s : State) :
    (generateNeutralKeyStream s).2 = (List.range 64).map (keyStream s) := by
  have hzeros : ∀ ii ∈ List.range 16,
      toBytes 4 (blockWord (nextBlock s) ii) = toBytes 4
        ((ofBytes (((List.replicate 64 (0 : u8)).drop (4 * ii)).take 4) : u32) ^^^
          blockWord (nextBlock s) ii) := by
    intro ii hii
    rw [List.mem_range] at hii
    have hfour : ((List.replicate 64 (0 : u8)).drop (4 * ii)).take 4 = [0, 0, 0, 0] := by
      rw [List.drop_replicate, List.take_replicate, Nat.min_eq_left (by omega)]
      rfl
    rw [hfour, show (ofBytes [0, 0, 0, 0] : u32) = 0#32 from rfl, BitVec.zero_xor]
  have hwords : (generateNeutralKeyStream s).2 =
      wordLoop (nextBlock s) (List.replicate 64 0) 16 := List.flatMap_congr hzeros
  rw [hwords, wordLoop_eq _ _ (by rw [List.length_replicate]),
    List.take_of_length_le (by rw [List.length_replicate])]
  unfold xorStream
  refine List.ext_getElem (by simp) fun k hk _ => ?_
  rw [List.length_mapIdx, List.length_replicate] at hk
  rw [List.getElem_mapIdx, List.getElem_replicate, List.getElem_map, List.getElem_range,
    keyStream_of_lt s hk]
  exact BitVec.zero_xor

variable {MK : Type}

/-- The primitives of the tunnel with this cipher. -/
def primitives (hash : MK → List u8 → u64) : Primitives (Vector u32 12) MK where
  keyStream key iv := keyStream (reKey key iv)
  hash := hash

/-- `Encrypt` with the calls that it makes: the first block of the key stream is for the MAC, and the
message is enciphered behind it. -/
def encryptWithCipher (hash : MK → List u8 → u64) (s : AuthenticatedEncryption (Vector u32 12) MK)
    (iv : u64) (buffer : List u8) : List u8 :=
  let msgBytes := buffer.length - overheadBytes
  let flag := buffer.getD msgBytes 0
  let lsb := flag &&& 1
  let first := generateNeutralKeyStream (reKey s.localCipherKey iv)
  let message := (crypt first.1 (buffer.take msgBytes)).2
  let vhash := (hash s.localMac (message ++ [flag]) <<< 1) ||| lsb.setWidth 64
  let mac := toBytes macBytes (ofBytes (first.2.take 8) ^^^ vhash)
  let truncIv := ivMask &&& (iv.setWidth 32 ^^^ ofBytes (mac.take 4) ^^^ ivFuzz)
  message ++ (mac ++ toBytes ivBytes truncIv)

/-- `Decrypt` with the calls that it makes. -/
def decryptWithCipher (hash : MK → List u8 → u64) (s : AuthenticatedEncryption (Vector u32 12) MK)
    (buffer : List u8) : AuthenticatedEncryption (Vector u32 12) MK × Bool × List u8 :=
  if buffer.length < overheadBytes then (s, false, buffer)
  else
    let msgBytes := buffer.length - overheadBytes
    let overhead := buffer.drop msgBytes
    let iv := reconstructCounter 24 s.remote.remoteIv (packetIv buffer)
    if !isValidIV s.remote iv then (s, false, buffer)
    else
      let first := generateNeutralKeyStream (reKey s.remoteCipherKey iv)
      let remoteVhash := ofBytes (overhead.take macBytes) ^^^ ofBytes (first.2.take 8)
      let lsb := remoteVhash &&& 1
      let overhead := lsb.setWidth 8 :: overhead.drop 1
      let message := buffer.take msgBytes
      let vhash := hash s.remoteMac (message ++ overhead.take 1) <<< 1
      if (remoteVhash ^^^ vhash) >>> 1 ≠ 0 then (s, false, message ++ overhead)
      else
        ({ s with remote := acceptIV s.remote iv }, true, (crypt first.1 message).2 ++ overhead)

theorem crypt_behind (s : State) (m : List u8) :
    (crypt (generateNeutralKeyStream s).1 m).2 = Crypt.crypt (keyStream s) m := by
  rw [crypt_eq]
  refine xorStream_congr fun k _ => ?_
  rw [Nat.add_comm 64 k]
  exact (keyStream_add s k).symm

theorem first_word (s : State) :
    (ofBytes ((generateNeutralKeyStream s).2.take 8) : u64) = vhashKeystream (keyStream s) := by
  rw [generate_eq, ← List.map_take, List.take_range]
  rfl

/-- The calls that the tunnel makes are those that its results are about: they are results about any
primitives. -/
theorem tunnel_cipher (hash : MK → List u8 → u64) (s : AuthenticatedEncryption (Vector u32 12) MK)
    (iv : u64) (buffer : List u8) :
    encryptWithCipher hash s iv buffer = encrypt (primitives hash) s iv buffer ∧
      decryptWithCipher hash s buffer = decrypt (primitives hash) s buffer := by
  constructor
  · unfold encryptWithCipher encrypt primitives
    dsimp only
    rw [crypt_behind, first_word]
  · unfold decryptWithCipher decrypt primitives
    dsimp only
    rw [crypt_behind, first_word]

end Cipher

end Libcat.Crypt.ChaCha
