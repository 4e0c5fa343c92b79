import Libcat.Crypt.ReplayWindow
import Libcat.Lib.Bytes

/-!
# The authenticated tunnel

`SetKey`, `GrabIVRange`, `Encrypt` and `Decrypt` of `AuthenticatedEncryption.cpp`, on whole
buffers. The key stream of ChaCha, VHash and the Skein key derivation are parameters: the key
stream is a function of key and IV, the first block of it (64 bytes, of which 8 are used) covers
the MAC and `Crypt` takes the rest. Words are stored as on a little-endian machine.

`decrypt_encrypt` is the round trip of one packet. `tunnel_delivery` is what a receiver makes of
the packets of a mirrored sender: in order, and out of order.
-/

namespace Libcat.Crypt

open Serial Bytes

def macBytes : Nat := 8
def ivBytes : Nat := 3
def overheadBytes : Nat := ivBytes + macBytes
def ivMask : u32 := 0xFFFFFF
def ivFuzz : u32 := 0x9F286AD7

variable {CK MK : Type}

/-- ChaCha's key stream for a key and an IV, byte by byte, and VHash of some bytes. -/
structure Primitives (CK MK : Type) where
  keyStream : CK → u64 → Nat → u8
  hash : MK → List u8 → u64

/-- What the key derivation makes of the agreed key for either direction: the names
`CAT_KEYNAME_MAC`, `CAT_KEYNAME_CIPHER` and `CAT_KEYNAME_IV` differ in the initiator flag only. -/
structure DerivedKeys (CK MK : Type) where
  mac : Bool → MK
  cipher : Bool → CK
  iv : Bool → u64

structure AuthenticatedEncryption (CK MK : Type) where
  localMac : MK
  remoteMac : MK
  localCipherKey : CK
  remoteCipherKey : CK
  localIv : u64
  remote : Remote

/-- `AuthenticatedEncryption::SetKey`. -/
def setKey (key : DerivedKeys CK MK) (isInitiator : Bool) : AuthenticatedEncryption CK MK where
  localMac := key.mac isInitiator
  remoteMac := key.mac (!isInitiator)
  localCipherKey := key.cipher isInitiator
  remoteCipherKey := key.cipher (!isInitiator)
  localIv := key.iv isInitiator
  remote := { acceptOutOfOrder := true, remoteIv := key.iv (!isInitiator), ivBitmap := fun _ => 0 }

/-- `AuthenticatedEncryption::AllowOutOfOrder`. -/
def allowOutOfOrder (s : AuthenticatedEncryption CK MK) (allowed : Bool) :
    AuthenticatedEncryption CK MK :=
  { s with remote := { s.remote with acceptOutOfOrder := allowed } }

/-- `AuthenticatedEncryption::GrabIVRange`. -/
def grabIVRange (s : AuthenticatedEncryption CK MK) (count : u32) :
    u64 × AuthenticatedEncryption CK MK :=
  (s.localIv, { s with localIv := s.localIv + count.setWidth 64 })

/-- `ChaChaOutput::Crypt`, after the first block. -/
def crypt (keyStream : Nat → u8) (bytes : List u8) : List u8 :=
  bytes.mapIdx fun i b => b ^^^ keyStream (64 + i)

/-- The first eight bytes of the key stream as a word. -/
def vhashKeystream (keyStream : Nat → u8) : u64 := ofBytes ((List.range 8).map keyStream)

variable (P : Primitives CK MK)

/-- `AuthenticatedEncryption::Encrypt` with the IV it is called with. -/
def encrypt (s : AuthenticatedEncryption CK MK) (iv : u64) (buffer : List u8) : List u8 :=
  let msgBytes := buffer.length - overheadBytes
  let flag := buffer.getD msgBytes 0
  let lsb := flag &&& 1
  let ks := P.keyStream s.localCipherKey iv
  let message := crypt ks (buffer.take msgBytes)
  let vhash := (P.hash s.localMac (message ++ [flag]) <<< 1) ||| lsb.setWidth 64
  let mac := toBytes macBytes (vhashKeystream ks ^^^ vhash)
  let truncIv := ivMask &&& (iv.setWidth 32 ^^^ ofBytes (mac.take 4) ^^^ ivFuzz)
  message ++ (mac ++ toBytes ivBytes truncIv)

/-- The truncated IV of a packet, de-obfuscated. -/
def packetIv (buffer : List u8) : u32 :=
  let overhead := buffer.drop (buffer.length - overheadBytes)
  ivMask &&& (ofBytes ((overhead.drop macBytes).take ivBytes) ^^^ ofBytes (overhead.take 4) ^^^ ivFuzz)

/-- `AuthenticatedEncryption::Decrypt`: the state, the return value and the buffer afterwards. -/
def decrypt (s : AuthenticatedEncryption CK MK) (buffer : List u8) :
    AuthenticatedEncryption CK MK × Bool × List u8 :=
  if buffer.length < overheadBytes then (s, false, buffer)
  else
    let msgBytes := buffer.length - overheadBytes
    let overhead := buffer.drop msgBytes
    let iv := reconstructCounter 24 s.remote.remoteIv (packetIv buffer)
    if !isValidIV s.remote iv then (s, false, buffer)
    else
      let ks := P.keyStream s.remoteCipherKey iv
      let remoteVhash := ofBytes (overhead.take macBytes) ^^^ vhashKeystream ks
      let lsb := remoteVhash &&& 1
      -- the flag byte takes the place of the first MAC byte
      let overhead := lsb.setWidth 8 :: overhead.drop 1
      let message := buffer.take msgBytes
      let vhash := P.hash s.remoteMac (message ++ overhead.take 1) <<< 1
      if (remoteVhash ^^^ vhash) >>> 1 ≠ 0 then (s, false, message ++ overhead)
      else ({ s with remote := acceptIV s.remote iv }, true, crypt ks message ++ overhead)

/-! ## One packet -/

section Packet

variable {P} {s r : AuthenticatedEncryption CK MK} {buffer : List u8}

theorem length_crypt (ks : Nat → u8) (bytes : List u8) :
    (crypt ks bytes).length = bytes.length := by
  simp [crypt]

theorem crypt_crypt (ks : Nat → u8) (bytes : List u8) : crypt ks (crypt ks bytes) = bytes := by
  apply List.ext_getElem
  · simp [crypt]
  · intro i h1 h2
    simp [crypt, BitVec.xor_assoc]

theorem length_encrypt (iv : u64) (h : overheadBytes ≤ buffer.length) :
    (encrypt P s iv buffer).length = buffer.length := by
  simp only [encrypt, List.length_append, length_crypt, length_toBytes, List.length_take]
  simp only [overheadBytes, macBytes, ivBytes] at *
  omega

theorem and_ivMask_lt (x : u32) : (ivMask &&& x).toNat < 2 ^ 24 := by
  rw [BitVec.toNat_and]
  exact Nat.lt_of_le_of_lt Nat.and_le_left (by decide)

theorem and_ivMask_toNat24 (x : u32) : (ivMask &&& x).toNat = x.toNat % 2 ^ 24 := by
  rw [BitVec.toNat_and, show ivMask.toNat = 2 ^ 24 - 1 from rfl, Nat.and_comm,
    Nat.and_two_pow_sub_one_eq_mod]

/-- The obfuscation of the truncated IV is undone by the receiver. -/
theorem deobfuscate (x y : u32) :
    ivMask &&& ((ivMask &&& (x ^^^ y ^^^ ivFuzz)) ^^^ y ^^^ ivFuzz) = ivMask &&& x := by
  ext i hi
  simp only [BitVec.getElem_and, BitVec.getElem_xor]
  cases ivMask[i] <;> cases x[i] <;> cases y[i] <;> cases ivFuzz[i] <;> rfl

/-- A hash shifted up, with the flag in its low bit. -/
theorem flagged_hash (h : u64) {flag : u8} (hf : flag = 0 ∨ flag = 1) :
    let v := (h <<< 1) ||| (flag &&& 1).setWidth 64
    (v &&& 1).setWidth 8 = flag ∧ (v ^^^ (h <<< 1)) >>> 1 = 0 := by
  rcases hf with rfl | rfl
  · constructor
    · ext i hi
      cases i <;> simp
    · simp
  · constructor
    · ext i hi
      cases i <;> simp
    · ext i hi
      simp

/-- A packet as the receiver takes it apart. -/
theorem encrypt_parts (iv : u64) (h : overheadBytes ≤ buffer.length) :
    ∃ mac trunc, mac.length = macBytes ∧ trunc.length = ivBytes ∧
      encrypt P s iv buffer =
        crypt (P.keyStream s.localCipherKey iv) (buffer.take (buffer.length - overheadBytes)) ++
          (mac ++ trunc) ∧
      ofBytes mac ^^^ vhashKeystream (P.keyStream s.localCipherKey iv) =
        ((P.hash s.localMac
            (crypt (P.keyStream s.localCipherKey iv) (buffer.take (buffer.length - overheadBytes)) ++
              [buffer.getD (buffer.length - overheadBytes) 0]) <<< 1) |||
          (buffer.getD (buffer.length - overheadBytes) 0 &&& 1).setWidth 64) ∧
      packetIv (encrypt P s iv buffer) = ivMask &&& iv.setWidth 32 := by
  have hlen := length_encrypt (P := P) (s := s) iv h
  refine ⟨_, _, length_toBytes _ _, length_toBytes _ _, rfl, ?_, ?_⟩
  · rw [ofBytes_toBytes (w := 64) (n := macBytes) (BitVec.isLt _), BitVec.xor_comm, ← BitVec.xor_assoc, BitVec.xor_self,
      BitVec.zero_xor]
  unfold packetIv
  rw [hlen]
  unfold encrypt
  simp only
  rw [List.drop_left' (by simp [length_crypt]), List.drop_left' (length_toBytes _ _),
    List.take_of_length_le (by simp), ofBytes_toBytes (and_ivMask_lt _),
    List.take_append_of_le_length (by simp [macBytes]), deobfuscate]

/-- **One packet.** With mirrored keys and an IV inside the truncation window, `Decrypt` of what
`Encrypt` made of a buffer restores the message and the flag byte if `IsValidIV` lets it. -/
theorem decrypt_encrypt {iv : u64} (hm : r.remoteMac = s.localMac)
    (hk : r.remoteCipherKey = s.localCipherKey) (hw : InWindow 24 r.remote.remoteIv iv)
    (h : overheadBytes ≤ buffer.length)
    (hf : buffer.getD (buffer.length - overheadBytes) 0 = 0 ∨
      buffer.getD (buffer.length - overheadBytes) 0 = 1) :
    if isValidIV r.remote iv = true then
      ∃ rest, decrypt P r (encrypt P s iv buffer) =
        ({ r with remote := acceptIV r.remote iv }, true,
          buffer.take (buffer.length - overheadBytes) ++
            buffer.getD (buffer.length - overheadBytes) 0 :: rest)
    else decrypt P r (encrypt P s iv buffer) = (r, false, encrypt P s iv buffer) := by
  have hlen := length_encrypt (P := P) (s := s) iv h
  obtain ⟨mac, trunc, hmac, htr, henc, hword, hpiv⟩ := encrypt_parts (P := P) (s := s) iv h
  have hiv : reconstructCounter 24 r.remote.remoteIv (packetIv (encrypt P s iv buffer)) = iv := by
    rw [hpiv]
    apply reconstructCounter_of_window (by omega) (by omega) (by omega) _ hw
    rw [and_ivMask_toNat24, BitVec.toNat_setWidth]
    omega
  have hlong : ¬ buffer.length < overheadBytes := Nat.not_lt.mpr h
  by_cases hv : isValidIV r.remote iv = true
  · have hpre : (crypt (P.keyStream s.localCipherKey iv)
        (buffer.take (buffer.length - overheadBytes))).length = buffer.length - overheadBytes := by
      simp [length_crypt]
    obtain ⟨hflag, hzero⟩ := flagged_hash
      (P.hash s.localMac (crypt (P.keyStream s.localCipherKey iv)
        (buffer.take (buffer.length - overheadBytes)) ++
          [buffer.getD (buffer.length - overheadBytes) 0])) hf
    rw [if_pos hv]
    simp only [decrypt, hlen, hlong, hiv, hv, Bool.not_true, Bool.false_eq_true, if_false, hm, hk]
    rw [henc, List.drop_left' hpre, List.take_left' hpre, List.take_left' hmac, hword]
    simp only [hflag, List.take_succ_cons, List.take_zero, hzero, ne_eq, not_true_eq_false,
      if_false, crypt_crypt]
    exact ⟨_, rfl⟩
  · rw [if_neg hv]
    simp only [decrypt, hlen, hlong, hiv, hv, Bool.not_false, if_true, if_false]

end Packet

/-! ## Batches of packets -/

/-- A buffer ready for `Encrypt`: room for the overhead, and a flag byte after the message. -/
structure Plaintext where
  buffer : List u8
  room : overheadBytes ≤ buffer.length
  flag : buffer.getD (buffer.length - overheadBytes) 0 = 0 ∨
    buffer.getD (buffer.length - overheadBytes) 0 = 1

/-- The message and the flag byte. -/
def Plaintext.content (p : Plaintext) : List u8 :=
  p.buffer.take (p.buffer.length - overheadBytes + 1)

/-- `Encrypt` of one buffer after the other, the IV advanced by each. -/
def encryptAll (s : AuthenticatedEncryption CK MK) : u64 → List Plaintext → List (List u8)
  | _, [] => []
  | iv, p :: ps => encrypt P s iv p.buffer :: encryptAll s (iv + 1) ps

/-- `WriteDatagrams`' use of the tunnel, once for each batch. -/
def encryptBatches (s : AuthenticatedEncryption CK MK) : List (List Plaintext) → List (List u8)
  | [] => []
  | b :: bs =>
    let r := grabIVRange s (BitVec.ofNat 32 b.length)
    encryptAll P s r.1 b ++ encryptBatches r.2 bs

section Batches

variable {P} {s : AuthenticatedEncryption CK MK}

theorem encryptAll_append (iv : u64) (as bs : List Plaintext) :
    encryptAll P s iv (as ++ bs) =
      encryptAll P s iv as ++ encryptAll P s (iv + BitVec.ofNat 64 as.length) bs := by
  induction as generalizing iv with
  | nil => simp [encryptAll]
  | cons p as ih =>
    rw [List.cons_append, encryptAll, ih, encryptAll, List.cons_append, List.length_cons,
      Nat.add_comm as.length, BitVec.ofNat_add, ← add_assoc]
    rfl

theorem encryptAll_localIv (x iv : u64) (ps : List Plaintext) :
    encryptAll P { s with localIv := x } iv ps = encryptAll P s iv ps := by
  induction ps generalizing iv with
  | nil => rfl
  | cons p ps ih => rw [encryptAll, ih, encryptAll]; rfl

/-- The ranges that `GrabIVRange` hands out are consecutive. -/
theorem encryptBatches_eq (s : AuthenticatedEncryption CK MK) (bs : List (List Plaintext))
    (hb : ∀ b ∈ bs, b.length < 2 ^ 32) :
    encryptBatches P s bs = encryptAll P s s.localIv bs.flatten := by
  induction bs generalizing s with
  | nil => rfl
  | cons b bs ih =>
    have hlen : (BitVec.ofNat 32 b.length).setWidth 64 = BitVec.ofNat 64 b.length := by
      have := hb b (by simp)
      apply BitVec.eq_of_toNat_eq
      simp only [BitVec.toNat_setWidth, BitVec.toNat_ofNat]
      omega
    simp only [encryptBatches, grabIVRange]
    rw [ih _ (fun b' h' => hb b' (by simp [h'])), List.flatten_cons, encryptAll_append,
      hlen]
    exact congrArg _ (encryptAll_localIv _ _ _)

theorem length_encryptAll (iv : u64) (ps : List Plaintext) :
    (encryptAll P s iv ps).length = ps.length := by
  induction ps generalizing iv with
  | nil => rfl
  | cons p ps ih => simp [encryptAll, ih]

theorem getElem?_encryptAll (iv : u64) (ps : List Plaintext) (i : Nat) :
    (encryptAll P s iv ps)[i]? =
      ps[i]?.map fun p => encrypt P s (iv + BitVec.ofNat 64 i) p.buffer := by
  induction ps generalizing iv i with
  | nil => rfl
  | cons p ps ih =>
    cases i with
    | zero => simp [encryptAll]
    | succ i =>
      rw [encryptAll, List.getElem?_cons_succ, List.getElem?_cons_succ, ih, Nat.add_comm i,
        BitVec.ofNat_add, ← add_assoc]
      rfl

end Batches

/-! ## Deliveries -/

/-- The receiver's log has the outcome and the buffer of each `Decrypt`. -/
def decryptStep (s : AuthenticatedEncryption CK MK) (packet : List u8) :
    AuthenticatedEncryption CK MK × List (Bool × List u8) :=
  ((decrypt P s packet).1, [(decrypt P s packet).2])

/-- `Decrypt` moves the replay window as `receivePacket` does, for some outcome of the MAC check. -/
theorem decrypt_remote (s : AuthenticatedEncryption CK MK) (buffer : List u8) :
    ∃ macValid iv, receivePacket s.remote ((packetIv buffer).setWidth 24) macValid =
        ((decrypt P s buffer).1.remote, iv) ∧ iv.isSome = (decrypt P s buffer).2.1 := by
  have hiv : ((packetIv buffer).setWidth 24).setWidth 32 = packetIv buffer := by
    have : (packetIv buffer).toNat < 2 ^ 24 := and_ivMask_lt _
    apply BitVec.eq_of_toNat_eq
    simp only [BitVec.toNat_setWidth]
    omega
  simp only [receivePacket_eq, hiv, decrypt]
  generalize reconstructCounter 24 s.remote.remoteIv (packetIv buffer) = iv
  split
  · exact ⟨false, none, by simp⟩
  split
  · exact ⟨false, none, by simp⟩
  next hv =>
    split
    · exact ⟨false, none, by simp⟩
    · exact ⟨true, some iv, by simpa using hv⟩

/-- A delivery, genuine or not, is a run of the replay window: it accepts no IV twice. -/
theorem exec_decrypt_remote (s : AuthenticatedEncryption CK MK) (packets : List (List u8)) :
    ∃ inputs, inputs.countP RemoteInput.isPacket = packets.length ∧
      (Run.exec remoteStep s.remote inputs).1 = (Run.exec (decryptStep P) s packets).1.remote ∧
      (Run.exec remoteStep s.remote inputs).2.map Option.isSome =
        (Run.exec (decryptStep P) s packets).2.map Prod.fst := by
  induction packets generalizing s with
  | nil => exact ⟨[], rfl, rfl, rfl⟩
  | cons p packets ih =>
    obtain ⟨macValid, iv, hstep, hok⟩ := decrypt_remote P s p
    obtain ⟨inputs, hlen, hstate, hlog⟩ := ih (decrypt P s p).1
    refine ⟨.packet ((packetIv p).setWidth 24) macValid :: inputs, ?_, ?_, ?_⟩
    · rw [List.countP_cons_of_pos rfl, hlen, List.length_cons]
    · rw [Run.exec_cons_fst, Run.exec_cons_fst, remoteStep_packet hstep, hstate]
      rfl
    · rw [Run.exec_cons_snd, Run.exec_cons_snd, remoteStep_packet hstep, List.map_append,
        List.map_append, hlog]
      simp [decryptStep, hok]

/-- Each arrival lies less than the window behind the newest one before it, and not farther ahead
of it than the truncated IV can tell. -/
def WithinReach : Nat → List Nat → Prop
  | _, [] => True
  | newest, i :: order =>
    newest < i + bitmapBits ∧ i ≤ newest + 2 ^ 23 ∧ WithinReach (max newest i) order

/-- No arrival moves the window by whole words and keeps some of them: these are the jumps for
which `AcceptIV` shifts a word by 64. -/
def NoWordJump : Nat → List Nat → Prop
  | _, [] => True
  | newest, i :: order =>
    ¬ (newest < i ∧ (i - newest) % 64 = 0 ∧ i - newest < bitmapBits - 64) ∧
      NoWordJump (max newest i) order

/-- The window against the positions that have arrived: a bit is set for these and no other. -/
structure Delivered (base : u64) (s : Remote) (newest : Nat) (arrived : List Nat) : Prop where
  accepts : s.acceptOutOfOrder = true
  remote : s.remoteIv = base + BitVec.ofNat 64 newest
  le : ∀ i ∈ arrived, i ≤ newest
  exact : ∀ d < bitmapBits, bit s.ivBitmap d = decide (d ≤ newest ∧ newest - d ∈ arrived)

section Window

variable {base : u64} {s : Remote} {newest i : Nat} {arrived : List Nat}

theorem Delivered.offset (h : Delivered base s newest arrived) (i : Nat) :
    base + BitVec.ofNat 64 i = s.remoteIv + BitVec.ofInt 64 ((i : Int) - newest) := by
  rw [h.remote, sub_eq_add_neg, BitVec.ofInt_add, BitVec.ofInt_neg, BitVec.ofInt_natCast,
    BitVec.ofInt_natCast]
  ring

/-- An arrival within reach is let through exactly when it is the first of its position. -/
theorem Delivered.isValidIV (h : Delivered base s newest arrived) (hback : newest < i + bitmapBits)
    (hfwd : i ≤ newest + 2 ^ 23) :
    Crypt.isValidIV s (base + BitVec.ofNat 64 i) = decide (i ∉ arrived) := by
  have hb : bitmapBits = 1024 := rfl
  rw [h.offset i, isValidIV_offset s (by omega) (by omega), h.accepts]
  by_cases hpos : newest < i
  · have hnew : i ∉ arrived := fun hi => by have := h.le i hi; omega
    simp [hnew, hpos]
  · have e : (-((i : Int) - newest)).toNat = newest - i := by omega
    have e' : newest - (newest - i) = i := by omega
    rw [e, h.exact _ (by omega), e']
    have h2 : (newest : Int) - i < bitmapBits := by omega
    simp [hpos, h2]

/-- A jump that is not by whole words moves the map up and adds nothing. -/
theorem moveWindow_bit {map : Nat → u64} {delta j : Nat} (h0 : 0 < delta) (hj : j < bitmapBits)
    (hw : ¬ (delta % 64 = 0 ∧ delta < bitmapBits - 64)) :
    bit (moveWindow map delta) j = (decide (j = 0) || (decide (delta ≤ j) && bit map (j - delta))) := by
  have hb : bitmapBits = 1024 := rfl
  unfold moveWindow
  split
  · have : ¬ delta ≤ j := by omega
    rw [bit_reset]; simp [this]
  · have hz : ¬ (delta % 64 = 0 ∧ delta + 64 ≤ j) := by omega
    rw [jumpWindow_bit h0 (by omega) hj]
    simp [hz]

/-- A first arrival is recorded, and nothing else is. -/
theorem Delivered.acceptIV (h : Delivered base s newest arrived) (hback : newest < i + bitmapBits)
    (hfwd : i ≤ newest + 2 ^ 23)
    (hw : ¬ (newest < i ∧ (i - newest) % 64 = 0 ∧ i - newest < bitmapBits - 64)) :
    Delivered base (Crypt.acceptIV s (base + BitVec.ofNat 64 i)) (max newest i) (i :: arrived) := by
  have hb : bitmapBits = 1024 := rfl
  have hoff := h.offset i
  rw [hoff, acceptIV_offset s (by omega) (by omega), ← hoff]
  by_cases hpos : newest < i
  · rw [if_pos (by omega), show ((i : Int) - newest).toNat = i - newest by omega,
      Nat.max_eq_right hpos.le]
    refine ⟨h.accepts, rfl, ?_, fun d hd => ?_⟩
    · intro j hj
      rcases List.mem_cons.mp hj with rfl | hj
      · exact Nat.le_refl _
      · have := h.le j hj; omega
    · rw [moveWindow_bit (by omega) hd (by omega)]
      by_cases hle : i - newest ≤ d
      · rw [h.exact _ (by omega)]
        have e1 : newest - (d - (i - newest)) = i - d := by omega
        have e2 : d - (i - newest) ≤ newest ↔ d ≤ i := by omega
        have e3 : (i - d = i) ↔ d = 0 ∨ i = 0 := by omega
        simp only [hle, e1, e2, List.mem_cons, e3]
        grind
      · -- between the old and the new end of the window nothing has arrived
        have hnone : d ≠ 0 → i - d ∉ arrived := fun _ hm => by have := h.le _ hm; omega
        have e3 : (i - d = i) ↔ d = 0 := by omega
        simp only [hle, List.mem_cons, e3]
        grind
  · rw [if_neg (by omega), show (-((i : Int) - newest)).toNat = newest - i by omega,
      Nat.max_eq_left (by omega)]
    refine ⟨h.accepts, h.remote, ?_, fun d hd => ?_⟩
    · intro j hj
      rcases List.mem_cons.mp hj with rfl | hj
      · omega
      · exact h.le j hj
    · simp only [bit_update]
      rw [h.exact _ hd]
      have e : d = newest - i ↔ d ≤ newest ∧ newest - d = i := by omega
      simp only [List.mem_cons, e]
      grind

end Window

section Delivery

variable {P} {s r : AuthenticatedEncryption CK MK} {base : u64}

/-- `r` holds the receiving half of the keys that `s` sends with. -/
structure Mirrored (s r : AuthenticatedEncryption CK MK) : Prop where
  mac : r.remoteMac = s.localMac
  key : r.remoteCipherKey = s.localCipherKey

theorem mirrored_setKey (key : DerivedKeys CK MK) (isInitiator allowed : Bool) :
    Mirrored (setKey key isInitiator) (allowOutOfOrder (setKey key (!isInitiator)) allowed) := by
  constructor <;> simp [setKey, allowOutOfOrder]

theorem delivered_setKey (key : DerivedKeys CK MK) (isInitiator : Bool) :
    Delivered (setKey key isInitiator).localIv
      (allowOutOfOrder (setKey key (!isInitiator)) true).remote 0 [] := by
  refine ⟨rfl, by simp [setKey, allowOutOfOrder], by simp, fun d _ => ?_⟩
  simp [setKey, allowOutOfOrder, bit]

/-- The content a buffer starts with after `Decrypt`. -/
theorem take_content (p : Plaintext) (rest : List u8) :
    (p.buffer.take (p.buffer.length - overheadBytes) ++
      p.buffer.getD (p.buffer.length - overheadBytes) 0 :: rest).take
        (p.buffer.length - overheadBytes + 1) = p.content := by
  have hlt : p.buffer.length - overheadBytes < p.buffer.length := by
    have := p.room
    simp only [overheadBytes, ivBytes, macBytes] at *
    omega
  rw [Plaintext.content, List.take_append, List.take_of_length_le (by simp), List.length_take,
    Nat.min_eq_left (by omega), Nat.add_sub_cancel_left, List.take_succ_cons, List.take_zero,
    List.take_add_one, List.getElem?_eq_getElem hlt, List.getD_eq_getElem _ _ hlt]
  rfl

/-- One arrival. -/
theorem Delivered.decrypt {newest i : Nat} {arrived : List Nat} (hm : Mirrored s r)
    (h : Delivered base r.remote newest arrived) (p : Plaintext)
    (hback : newest < i + bitmapBits) (hfwd : i ≤ newest + 2 ^ 23)
    (hw : ¬ (newest < i ∧ (i - newest) % 64 = 0 ∧ i - newest < bitmapBits - 64)) :
    ∃ r' buf, Crypt.decrypt P r (encrypt P s (base + BitVec.ofNat 64 i) p.buffer) =
        (r', decide (i ∉ arrived), buf) ∧
      (i ∉ arrived → buf.take (p.buffer.length - overheadBytes + 1) = p.content) ∧
      Mirrored s r' ∧ Delivered base r'.remote (max newest i) (i :: arrived) := by
  have hb : bitmapBits = 1024 := rfl
  have hwin : InWindow 24 r.remote.remoteIv (base + BitVec.ofNat 64 i) := by
    have e : (BitVec.ofInt 64 ((i : Int) - newest)).toInt = (i : Int) - newest := by
      rw [BitVec.toInt_ofInt]
      apply Int.bmod_eq_of_le
      · simp; omega
      · simp; omega
    rw [h.offset i, InWindow, add_sub_cancel_left, e]
    omega
  have hv := h.isValidIV hback hfwd
  have hone := decrypt_encrypt (P := P) hm.mac hm.key hwin p.room p.flag
  by_cases hi : i ∈ arrived
  · rw [hv, if_neg (by simpa using hi)] at hone
    refine ⟨r, _, by rw [hone, decide_eq_false (not_not.mpr hi)], fun hn => absurd hi hn, hm, ?_⟩
    rw [Nat.max_eq_left (h.le i hi)]
    refine ⟨h.accepts, h.remote, ?_, fun d hd => ?_⟩
    · rintro j (_ | ⟨_, hj⟩)
      · exact h.le i hi
      · exact h.le j hj
    · rw [h.exact d hd]
      grind
  · rw [hv, if_pos (by simpa using hi)] at hone
    obtain ⟨rest, hone⟩ := hone
    exact ⟨{ r with remote := Crypt.acceptIV r.remote (base + BitVec.ofNat 64 i) }, _,
      by rw [hone, decide_eq_true hi], fun _ => take_content p rest, ⟨hm.mac, hm.key⟩,
      h.acceptIV hback hfwd hw⟩

/-- The packets in the order of their arrival. -/
def arrivals (packets : List (List u8)) (order : List Nat) : List (List u8) :=
  order.map fun i => packets.getD i []

/-- The log of the receiver over a whole delivery. -/
theorem Delivered.run {ps : List Plaintext} :
    ∀ (order : List Nat) (newest : Nat) (arrived : List Nat) (r : AuthenticatedEncryption CK MK),
      Mirrored s r → Delivered base r.remote newest arrived → WithinReach newest order →
      NoWordJump newest order →
      ∀ j i p, order[j]? = some i → ps[i]? = some p → (∀ i ∈ order, i < ps.length) →
        ∃ buf, (Run.exec (decryptStep P) r (arrivals (encryptAll P s base ps) order)).2[j]? =
            some (decide (i ∉ arrived ∧ i ∉ order.take j), buf) ∧
          (i ∉ arrived ∧ i ∉ order.take j →
            buf.take (p.buffer.length - overheadBytes + 1) = p.content) := by
  intro order
  induction order with
  | nil => intro _ _ _ _ _ _ _ j i p hj; simp at hj
  | cons k order ih =>
    intro newest arrived r hm h hreach hjump j i p hj hp hlt
    obtain ⟨hback, hfwd, hreach⟩ := hreach
    obtain ⟨q, hq⟩ : ∃ q, ps[k]? = some q :=
      ⟨_, List.getElem?_eq_getElem (hlt k (by simp))⟩
    have hpk : (encryptAll P s base ps).getD k [] =
        encrypt P s (base + BitVec.ofNat 64 k) q.buffer := by
      rw [List.getD_eq_getElem?_getD, getElem?_encryptAll, hq]; rfl
    obtain ⟨r', buf, hdec, hbuf, hm', h'⟩ := h.decrypt (P := P) hm q hback hfwd hjump.1
    have hexec : (Run.exec (decryptStep P) r (arrivals (encryptAll P s base ps) (k :: order))).2 =
        (decide (k ∉ arrived), buf) ::
          (Run.exec (decryptStep P) r' (arrivals (encryptAll P s base ps) order)).2 := by
      rw [arrivals, List.map_cons, Run.exec_cons_snd, decryptStep, hpk, hdec]
      rfl
    rw [hexec]
    cases j with
    | zero =>
      obtain rfl : k = i := by simpa using hj
      obtain rfl : q = p := by rw [hq] at hp; simpa using hp
      exact ⟨buf, by simp, by simpa using hbuf⟩
    | succ j =>
      rw [List.getElem?_cons_succ] at hj ⊢
      obtain ⟨buf', hlog, hbuf'⟩ := ih _ _ r' hm' h' hreach hjump.2 j i p hj hp
        (fun i hi => hlt i (by simp [hi]))
      refine ⟨buf', ?_, fun hn => hbuf' ?_⟩
      · rw [hlog]; simp only [List.mem_cons, List.take_succ_cons]; grind
      · simp only [List.mem_cons, List.take_succ_cons] at hn ⊢; grind

theorem withinReach_range (k n : Nat) : WithinReach (k - 1) (List.range' k n) := by
  induction n generalizing k with
  | zero => trivial
  | succ n ih =>
    rw [List.range'_succ]
    refine ⟨by simp only [bitmapBits]; omega, by omega, ?_⟩
    rw [show max (k - 1) k = k + 1 - 1 by omega]
    exact ih (k + 1)

theorem noWordJump_range (k n : Nat) : NoWordJump (k - 1) (List.range' k n) := by
  induction n generalizing k with
  | zero => trivial
  | succ n ih =>
    rw [List.range'_succ]
    refine ⟨by omega, ?_⟩
    rw [show max (k - 1) k = k + 1 - 1 by omega]
    exact ih (k + 1)

theorem arrivals_range (packets : List (List u8)) :
    arrivals packets (List.range packets.length) = packets := by
  apply List.ext_getElem
  · simp [arrivals]
  · intro i h1 h2
    simp [arrivals, h2]

/-- In strict order mode the first packet, whose IV is `remote_iv` itself, is turned away. -/
theorem decrypt_first_strict (hm : Mirrored s r) (hr : r.remote.acceptOutOfOrder = false)
    (p : Plaintext) :
    decrypt P r (encrypt P s r.remote.remoteIv p.buffer) =
      (r, false, encrypt P s r.remote.remoteIv p.buffer) := by
  have hv : isValidIV r.remote r.remote.remoteIv = false := by
    have := isValidIV_offset r.remote (d := 0) (by omega) (by omega)
    simpa [hr] using this
  have hwin : InWindow 24 r.remote.remoteIv r.remote.remoteIv := by
    simp [InWindow]
  have := decrypt_encrypt (P := P) hm.mac hm.key hwin p.room p.flag
  rwa [if_neg (by simp [hv])] at this

end Delivery

/-- Every packet of `ps`, delivered in order, is restored. -/
def RestoredInOrder (ps : List Plaintext) (log : List (Bool × List u8)) : Prop :=
  ∀ (j : Nat) (p : Plaintext), ps[j]? = some p → ∃ buf : List u8, log[j]? = some (true, buf) ∧
    buf.take (p.buffer.length - overheadBytes + 1) = p.content

/-- Of the arrivals in `order` each is restored if it is the first of its packet, and turned away
otherwise. -/
def RestoredOnce (ps : List Plaintext) (order : List Nat) (log : List (Bool × List u8)) : Prop :=
  ∀ (j i : Nat) (p : Plaintext), order[j]? = some i → ps[i]? = some p →
    ∃ buf : List u8, log[j]? = some (decide (i ∉ order.take j), buf) ∧
      (i ∉ order.take j → buf.take (p.buffer.length - overheadBytes + 1) = p.content)

/-- **Tunnel delivery.** Between mirrored ends, an in-order delivery without loss restores every
packet just when out-of-order packets are allowed or nothing was sent; and any delivery within
reach that makes no word jump restores each packet exactly on its first arrival. -/
theorem tunnel_delivery (P : Primitives CK MK) (key : DerivedKeys CK MK) (isInitiator : Bool)
    (batches : List (List Plaintext)) (hb : ∀ b ∈ batches, b.length < 2 ^ 32) :
    (∀ allowed : Bool,
      RestoredInOrder batches.flatten
        (Run.exec (decryptStep P) (allowOutOfOrder (setKey key (!isInitiator)) allowed)
          (encryptBatches P (setKey key isInitiator) batches)).2 ↔
        allowed = true ∨ batches.flatten = []) ∧
    ∀ order : List Nat, (∀ i ∈ order, i < batches.flatten.length) → WithinReach 0 order →
      NoWordJump 0 order →
      RestoredOnce batches.flatten order
        (Run.exec (decryptStep P) (allowOutOfOrder (setKey key (!isInitiator)) true)
          (arrivals (encryptBatches P (setKey key isInitiator) batches) order)).2 := by
  rw [encryptBatches_eq _ _ hb]
  generalize batches.flatten = ps
  have hany : ∀ order : List Nat, (∀ i ∈ order, i < ps.length) → WithinReach 0 order →
      NoWordJump 0 order → RestoredOnce ps order
        (Run.exec (decryptStep P) (allowOutOfOrder (setKey key (!isInitiator)) true)
          (arrivals (encryptAll P (setKey key isInitiator) (setKey key isInitiator).localIv ps)
            order)).2 := by
    intro order hlt hreach hjump j i p hj hp
    have := Delivered.run (P := P) order 0 [] _ (mirrored_setKey key isInitiator true)
      (delivered_setKey key isInitiator) hreach hjump j i p hj hp hlt
    simpa using this
  refine ⟨fun allowed => ?_, hany⟩
  cases allowed with
  | true =>
    simp only [true_or, iff_true]
    intro j p hp
    have hjlt : j < ps.length := (List.getElem?_eq_some_iff.mp hp).1
    have hrange := hany (List.range ps.length) (by simp)
      (by rw [List.range_eq_range']; exact withinReach_range 0 ps.length)
      (by rw [List.range_eq_range']; exact noWordJump_range 0 ps.length)
      j j p (by simp [hjlt]) hp
    have harr := arrivals_range
      (encryptAll P (setKey key isInitiator) (setKey key isInitiator).localIv ps)
    rw [length_encryptAll] at harr
    rw [harr] at hrange
    have hfresh : j ∉ (List.range ps.length).take j := by
      rw [List.take_range]; simp
    simpa [hfresh] using hrange
  | false =>
    simp only [Bool.false_eq_true, false_or]
    constructor
    · intro h
      cases ps with
      | nil => rfl
      | cons p ps =>
        obtain ⟨buf, hlog, -⟩ := h 0 p rfl
        have hfirst := decrypt_first_strict (P := P) (mirrored_setKey key isInitiator false)
          rfl p
        have hiv : (allowOutOfOrder (setKey key (!isInitiator)) false).remote.remoteIv =
            (setKey key isInitiator).localIv := by simp [setKey, allowOutOfOrder]
        rw [hiv] at hfirst
        rw [encryptAll, Run.exec_cons_snd, decryptStep, hfirst] at hlog
        simp at hlog
    · rintro rfl j p hp
      simp at hp

/-- Primitives to run the tunnel with. -/
def samplePrimitives : Primitives Bool Bool where
  keyStream k iv n := iv.setWidth 8 + BitVec.ofNat 8 n + if k then 1 else 0
  hash k bytes := (ofBytes bytes : u64) + if k then 1 else 0

def sampleKeys : DerivedKeys Bool Bool where
  mac := id
  cipher := id
  iv b := if b then 0xFFFFFE else 7

def samplePlaintext : Plaintext where
  buffer := List.replicate 14 1
  room := by decide
  flag := by decide

theorem tunnel_delivery_swapped :
    RestoredInOrder [samplePlaintext, samplePlaintext, samplePlaintext]
      (Run.exec (decryptStep samplePrimitives)
        (allowOutOfOrder (setKey sampleKeys (!true)) true)
        (encryptBatches samplePrimitives (setKey sampleKeys true)
          [[samplePlaintext], [samplePlaintext, samplePlaintext]])).2 ∧
    RestoredOnce [samplePlaintext, samplePlaintext, samplePlaintext] [2, 0, 2]
      (Run.exec (decryptStep samplePrimitives)
        (allowOutOfOrder (setKey sampleKeys (!true)) true)
        (arrivals (encryptBatches samplePrimitives (setKey sampleKeys true)
          [[samplePlaintext], [samplePlaintext, samplePlaintext]]) [2, 0, 2])).2 := by
  have h := tunnel_delivery samplePrimitives sampleKeys true
    [[samplePlaintext], [samplePlaintext, samplePlaintext]] (by decide)
  exact ⟨(h.1 true).mpr (.inl rfl), h.2 [2, 0, 2] (by decide)
    (by simp [WithinReach, bitmapBits]) (by simp [NoWordJump])⟩

/-- The first packet is lost in strict order mode; and after two jumps by 64 so is packet 0, which
never arrived before. -/
theorem tunnel_delivery_first_and_word_jump :
    ¬ RestoredInOrder [samplePlaintext]
      (Run.exec (decryptStep samplePrimitives)
        (allowOutOfOrder (setKey sampleKeys (!true)) false)
        (encryptBatches samplePrimitives (setKey sampleKeys true) [[samplePlaintext]])).2 ∧
    WithinReach 0 [64, 128, 0] ∧
    ¬ RestoredOnce (List.replicate 129 samplePlaintext) [64, 128, 0]
      (Run.exec (decryptStep samplePrimitives)
        (allowOutOfOrder (setKey sampleKeys (!true)) true)
        (arrivals (encryptBatches samplePrimitives (setKey sampleKeys true)
          [List.replicate 129 samplePlaintext]) [64, 128, 0])).2 := by
  refine ⟨fun h => ?_, by simp [WithinReach, bitmapBits], fun h => ?_⟩
  · obtain ⟨buf, hlog, -⟩ := h 0 samplePlaintext rfl
    have hrun : ((Run.exec (decryptStep samplePrimitives)
        (allowOutOfOrder (setKey sampleKeys (!true)) false)
        (encryptBatches samplePrimitives (setKey sampleKeys true)
          [[samplePlaintext]])).2[0]?.map Prod.fst) = some false := by decide +kernel
    rw [hlog] at hrun
    simp at hrun
  · obtain ⟨buf, hlog, -⟩ := h 2 0 samplePlaintext rfl rfl
    have hrun : ((Run.exec (decryptStep samplePrimitives)
        (allowOutOfOrder (setKey sampleKeys (!true)) true)
        (arrivals (encryptBatches samplePrimitives (setKey sampleKeys true)
          [List.replicate 129 samplePlaintext]) [64, 128, 0])).2[2]?.map Prod.fst) =
        some false := by decide +kernel
    rw [hlog] at hrun
    simp at hrun

end Libcat.Crypt
