import Libcat.Math.BitMath
import Mathlib.Data.List.GetD
import Mathlib.Tactic

/-!
# Base64

The writers and the readers of `Base64`, to a buffer and to a stream. A writer turns three bytes into
four characters in its loop, and has a tail for one byte and one for two; a reader takes the `=` from
the end, turns four characters into three bytes, and has tails for three characters and for two.

- `encode`, `decode`: what is written and read, on lists.
- `writeBase64_eq`, `writeBase64Stream_eq`, `readBase64_eq`, `readBase64Stream_eq`: the functions do
  that, and nothing where the buffer is too small.
- `base64` is all there is to say about them together.
-/

namespace Libcat.Parse.Base64

section Model

/-! ## Tables -/

def TO_BASE64 : List u8 :=
  "ABCDEFGHIJKLMNOPQRSTUVWXYZabcdefghijklmnopqrstuvwxyz0123456789+/".toList.map fun c =>
    BitVec.ofNat 8 c.toNat

def DC : Nat := 0

def FROM_BASE64 : List Nat :=
  [DC, DC, DC, DC, DC, DC, DC, DC, DC, DC, DC, DC, DC, DC, DC, DC,
   DC, DC, DC, DC, DC, DC, DC, DC, DC, DC, DC, DC, DC, DC, DC, DC,
   DC, DC, DC, DC, DC, DC, DC, DC, DC, DC, DC, 62, DC, DC, DC, 63,
   52, 53, 54, 55, 56, 57, 58, 59, 60, 61, DC, DC, DC, DC, DC, DC,
   DC, 0, 1, 2, 3, 4, 5, 6, 7, 8, 9, 10, 11, 12, 13, 14,
   15, 16, 17, 18, 19, 20, 21, 22, 23, 24, 25, DC, DC, DC, DC, DC,
   DC, 26, 27, 28, 29, 30, 31, 32, 33, 34, 35, 36, 37, 38, 39, 40,
   41, 42, 43, 44, 45, 46, 47, 48, 49, 50, 51, DC, DC, DC, DC, DC] ++ List.replicate 128 DC

def toBase64 (n : Nat) : u8 := TO_BASE64.getD n 0

def fromBase64 (c : u8) : Nat := FROM_BASE64.getD c.toNat DC

/-- `'='`. -/
def pad : u8 := 61

/-! ## Lengths -/

/-- The value of an `int`. -/
def int (z : Int) : Int := z.bmod (2 ^ 32)

def getBase64LengthFromBinaryLength (bytes : Int) : Int :=
  if bytes ≤ 0 then 0 else int ((int (bytes + 2)).tdiv 3 * 4)

/-- The loop that skips `=` at the end. -/
def skipPad (encoded_buffer : List u8) : Nat → Nat
  | 0 => 0
  | bytes + 1 => if encoded_buffer.getD bytes 0 = pad then skipPad encoded_buffer bytes else bytes + 1

def getBinaryLengthFromBase64Length (encoded_buffer : List u8) : Int :=
  if encoded_buffer.length = 0 then 0
  else
    let bytes : Int := skipPad encoded_buffer encoded_buffer.length
    (int (bytes * 3)).tdiv 4

/-! ## Writers -/

/-- The characters of three bytes. -/
def fullGroup (x y z : u8) : List u8 :=
  [toBase64 (x.toNat >>> 2), toBase64 ((x.toNat <<< 4 ||| y.toNat >>> 4) &&& 0x3f),
    toBase64 ((y.toNat <<< 2 ||| z.toNat >>> 6) &&& 0x3f), toBase64 (z.toNat &&& 0x3f)]

/-- The characters of the last byte, without the padding. -/
def finalByte (x : u8) : List u8 :=
  [toBase64 (x.toNat >>> 2), toBase64 (x.toNat <<< 4 &&& 0x3f)]

/-- The characters of the last two bytes, without the padding. -/
def finalBytes (x y : u8) : List u8 :=
  [toBase64 (x.toNat >>> 2), toBase64 ((x.toNat <<< 4 ||| y.toNat >>> 4) &&& 0x3f),
    toBase64 (y.toNat <<< 2 &&& 0x3f)]

/-- Characters written to a buffer, one after the other. -/
def store (buffer : Nat → u8) : Nat → List u8 → Nat → u8
  | _, [] => buffer
  | jj, c :: cs => store (Function.update buffer jj c) (jj + 1) cs

/-- The loop of `WriteBase64`. -/
def writeLoop (data : List u8) (stop : Int) : Nat → Nat → Nat → (Nat → u8) → Option (Nat × Nat × (Nat → u8))
  | 0, ii, jj, encoded_buffer => if (ii : Int) < stop then none else some (ii, jj, encoded_buffer)
  | fuel + 1, ii, jj, encoded_buffer =>
    if (ii : Int) < stop then
      writeLoop data stop fuel (ii + 3) (jj + 4)
        (store encoded_buffer jj (fullGroup (data.getD ii 0) (data.getD (ii + 1) 0) (data.getD (ii + 2) 0)))
    else some (ii, jj, encoded_buffer)

/-- What `WriteBase64` does behind its loop. -/
def writeTail (data : List u8) (stop : Int) (r : Nat × Nat × (Nat → u8)) : Nat → u8 :=
  let bytes := data.length
  if r.1 - stop = 1 then store r.2.2 r.2.1 (finalByte (data.getD (bytes - 1) 0) ++ [pad, pad])
  else if r.1 - stop = 0 then
    store r.2.2 r.2.1 (finalBytes (data.getD (bytes - 2) 0) (data.getD (bytes - 1) 0) ++ [pad])
  else r.2.2

/-- `WriteBase64` to a buffer: the buffer and the return value. -/
def writeBase64 (fuel : Nat) (data : List u8) (encoded_buffer : Nat → u8) (encoded_bytes : Int) :
    Option ((Nat → u8) × Int) :=
  let bytes : Int := data.length
  let written_bytes := int ((int (bytes + 2)).tdiv 3 * 4)
  if bytes ≤ 0 ∨ encoded_bytes < written_bytes then some (encoded_buffer, 0)
  else
    let stop := bytes - 2
    (writeLoop data stop fuel 0 0 encoded_buffer).map fun r => (writeTail data stop r, written_bytes)

/-- `WriteBase64Str`. -/
def writeBase64Str (fuel : Nat) (data : List u8) (encoded_buffer : Nat → u8) (encoded_bytes : Int) :
    Option ((Nat → u8) × Int) :=
  (writeBase64 fuel data encoded_buffer (encoded_bytes - 1)).map fun r =>
    (Function.update r.1 r.2.toNat 0, r.2)

/-- The loop of `WriteBase64` to a stream. -/
def writeStreamLoop (data : List u8) (stop : Int) : Nat → Nat → List u8 → Option (Nat × List u8)
  | 0, ii, output => if (ii : Int) < stop then none else some (ii, output)
  | fuel + 1, ii, output =>
    if (ii : Int) < stop then
      writeStreamLoop data stop fuel (ii + 3)
        (output ++ fullGroup (data.getD ii 0) (data.getD (ii + 1) 0) (data.getD (ii + 2) 0))
    else some (ii, output)

def writeStreamTail (data : List u8) (stop : Int) (r : Nat × List u8) : List u8 :=
  let bytes := data.length
  if r.1 - stop = 1 then r.2 ++ (finalByte (data.getD (bytes - 1) 0) ++ [pad, pad])
  else if r.1 - stop = 0 then
    r.2 ++ (finalBytes (data.getD (bytes - 2) 0) (data.getD (bytes - 1) 0) ++ [pad])
  else r.2

/-- `WriteBase64` to a stream: what the stream gets and the return value. -/
def writeBase64Stream (fuel : Nat) (data : List u8) : Option (List u8 × Int) :=
  let bytes : Int := data.length
  if bytes ≤ 0 then some ([], 0)
  else
    let stop := bytes - 2
    (writeStreamLoop data stop fuel 0 []).map fun r =>
      (writeStreamTail data stop r, int ((int (bytes + 2)).tdiv 3 * 4))

/-! ## Readers -/

/-- The bytes of four characters. -/
def fullBytes (a b c d : u8) : List u8 :=
  let a := fromBase64 a
  let b := fromBase64 b
  let c := fromBase64 c
  let d := fromBase64 d
  [BitVec.ofNat 8 (a <<< 2 ||| b >>> 4), BitVec.ofNat 8 (b <<< 4 ||| c >>> 2), BitVec.ofNat 8 (c <<< 6 ||| d)]

/-- The bytes of three characters that are left. -/
def leftThree (a b c : u8) : List u8 :=
  let a := fromBase64 a
  let b := fromBase64 b
  let c := fromBase64 c
  [BitVec.ofNat 8 (a <<< 2 ||| b >>> 4), BitVec.ofNat 8 (b <<< 4 ||| c >>> 2)]

/-- The byte of two characters that are left. -/
def leftTwo (a b : u8) : List u8 :=
  let a := fromBase64 a
  let b := fromBase64 b
  [BitVec.ofNat 8 (a <<< 2 ||| b >>> 4)]

/-- The loop of `ReadBase64`. -/
def readLoop (source : List u8) (stop : Int) : Nat → Nat → Nat → (Nat → u8) → Option (Nat × Nat × (Nat → u8))
  | 0, ii, jj, decoded => if (ii : Int) < stop then none else some (ii, jj, decoded)
  | fuel + 1, ii, jj, decoded =>
    if (ii : Int) < stop then
      readLoop source stop fuel (ii + 4) (jj + 3) (store decoded jj (fullBytes (source.getD ii 0)
        (source.getD (ii + 1) 0) (source.getD (ii + 2) 0) (source.getD (ii + 3) 0)))
    else some (ii, jj, decoded)

/-- What `ReadBase64` does behind its loop. -/
def readTail (source : List u8) (encoded_bytes : Nat) (r : Nat × Nat × (Nat → u8)) : (Nat → u8) × Int :=
  let (ii, jj, decoded) := r
  match encoded_bytes &&& 3 with
  | 3 =>
    (store decoded jj (leftThree (source.getD ii 0) (source.getD (ii + 1) 0) (source.getD (ii + 2) 0)), jj + 2)
  | 2 => (store decoded jj (leftTwo (source.getD ii 0) (source.getD (ii + 1) 0)), jj + 1)
  | _ => (decoded, jj)

/-- `ReadBase64` to a buffer: the buffer and the return value. -/
def readBase64 (fuel : Nat) (encoded_buffer : List u8) (decoded_buffer : Nat → u8) (decoded_bytes : Int) :
    Option ((Nat → u8) × Int) :=
  let encoded_bytes := skipPad encoded_buffer encoded_buffer.length
  if encoded_bytes = 0 ∨ decoded_bytes ≤ 0 ∨ decoded_bytes < (int (encoded_bytes * 3)).tdiv 4 then
    some (decoded_buffer, 0)
  else
    (readLoop encoded_buffer (encoded_bytes - 3) fuel 0 0 decoded_buffer).map
      (readTail encoded_buffer encoded_bytes)

/-- The loop of `ReadBase64` to a stream. -/
def readStreamLoop (source : List u8) (stop : Int) : Nat → Nat → List u8 → Option (Nat × List u8)
  | 0, ii, output => if (ii : Int) < stop then none else some (ii, output)
  | fuel + 1, ii, output =>
    if (ii : Int) < stop then
      readStreamLoop source stop fuel (ii + 4) (output ++ fullBytes (source.getD ii 0)
        (source.getD (ii + 1) 0) (source.getD (ii + 2) 0) (source.getD (ii + 3) 0))
    else some (ii, output)

def readStreamTail (source : List u8) (encoded_bytes : Nat) (r : Nat × List u8) : List u8 :=
  let (ii, output) := r
  match encoded_bytes &&& 3 with
  | 3 => output ++ leftThree (source.getD ii 0) (source.getD (ii + 1) 0) (source.getD (ii + 2) 0)
  | 2 => output ++ leftTwo (source.getD ii 0) (source.getD (ii + 1) 0)
  | _ => output

/-- `ReadBase64` to a stream: what the stream gets and the return value. -/
def readBase64Stream (fuel : Nat) (encoded_buffer : List u8) : Option (List u8 × Int) :=
  let encoded_bytes := skipPad encoded_buffer encoded_buffer.length
  if encoded_bytes = 0 then some ([], 0)
  else
    (readStreamLoop encoded_buffer (encoded_bytes - 3) fuel 0 []).map fun r =>
      (readStreamTail encoded_buffer encoded_bytes r, (int (encoded_bytes * 3)).tdiv 4)

/-! ## What is written and read -/

/-- The characters of some bytes, without the padding. -/
def encodeChars : List u8 → List u8
  | x :: y :: z :: data => fullGroup x y z ++ encodeChars data
  | [x, y] => finalBytes x y
  | [x] => finalByte x
  | [] => []

def encode (data : List u8) : List u8 :=
  encodeChars data ++ List.replicate ((3 - data.length % 3) % 3) pad

/-- The bytes of some characters. One that is left over has none. -/
def decode : List u8 → List u8
  | a :: b :: c :: d :: source => fullBytes a b c d ++ decode source
  | [a, b, c] => leftThree a b c
  | [a, b] => leftTwo a b
  | _ => []

/-- A buffer with some bytes at its front. -/
def overwrite (buffer : Nat → u8) (bytes : List u8) (i : Nat) : u8 :=
  if i < bytes.length then bytes.getD i 0 else buffer i

end Model

section Spec

/-! ## Buffers -/

theorem store_append (xs ys : List u8) :
    ∀ (buffer : Nat → u8) (jj : Nat), store buffer jj (xs ++ ys) = store (store buffer jj xs) (jj + xs.length) ys := by
  induction xs with
  | nil => exact fun _ _ => rfl
  | cons x xs ih =>
    intro buffer jj
    rw [List.cons_append, store, ih, store, List.length_cons, Nat.add_right_comm]
    rfl

theorem store_apply (cs : List u8) : ∀ (buffer : Nat → u8) (jj i : Nat),
    store buffer jj cs i = if jj ≤ i ∧ i < jj + cs.length then cs.getD (i - jj) 0 else buffer i := by
  induction cs with
  | nil =>
    intro buffer jj i
    rw [if_neg (by rw [List.length_nil]; omega)]
    rfl
  | cons c cs ih =>
    intro buffer jj i
    rw [store, ih, List.length_cons]
    by_cases hhere : i = jj
    · subst hhere
      rw [if_neg (by omega), if_pos (by omega), Function.update_self, Nat.sub_self]
      rfl
    · rw [Function.update_of_ne hhere]
      by_cases hin : jj + 1 ≤ i ∧ i < jj + 1 + cs.length
      · rw [if_pos hin, if_pos (by omega), show i - jj = (i - (jj + 1)) + 1 by omega, List.getD_cons_succ]
      · rw [if_neg hin, if_neg (by omega)]

theorem store_zero (buffer : Nat → u8) (cs : List u8) : store buffer 0 cs = overwrite buffer cs := by
  funext i
  rw [store_apply, overwrite, Nat.zero_add, Nat.sub_zero]
  simp only [Nat.zero_le, true_and]

/-! ## Groups -/

theorem fromBase64_toBase64 : ∀ n < 64, fromBase64 (toBase64 n) = n := by decide +kernel

theorem toBase64_ne_pad : ∀ n < 64, toBase64 n ≠ pad := by decide +kernel

theorem first_index (x : u8) : x.toNat >>> 2 = x.toNat / 4 := Nat.shiftRight_eq_div_pow _ _

theorem second_index (x y : Nat) (hy : y < 256) :
    (x <<< 4 ||| y >>> 4) &&& 0x3f = (x * 16 + y / 16) % 64 := by
  have hlow : y >>> 4 < 2 ^ 4 := by
    rw [Nat.shiftRight_eq_div_pow]
    omega
  rw [← Nat.shiftLeft_add_eq_or_of_lt hlow, Nat.shiftRight_eq_div_pow, Nat.shiftLeft_eq,
    Nat.and_two_pow_sub_one_eq_mod _ 6]

theorem third_index (y z : Nat) (hz : z < 256) :
    (y <<< 2 ||| z >>> 6) &&& 0x3f = (y * 4 + z / 64) % 64 := by
  have hlow : z >>> 6 < 2 ^ 2 := by
    rw [Nat.shiftRight_eq_div_pow]
    omega
  rw [← Nat.shiftLeft_add_eq_or_of_lt hlow, Nat.shiftRight_eq_div_pow, Nat.shiftLeft_eq,
    Nat.and_two_pow_sub_one_eq_mod _ 6]

theorem byte_or {a b s : Nat} (hb : b < 2 ^ s) : a <<< s ||| b = a * 2 ^ s + b := by
  rw [← Nat.shiftLeft_add_eq_or_of_lt hb, Nat.shiftLeft_eq]

theorem ofNat_eq {n : Nat} {x : u8} (h : n % 256 = x.toNat) : BitVec.ofNat 8 n = x :=
  BitVec.eq_of_toNat_eq ((BitVec.toNat_ofNat _ _).trans h)

/-- What two bytes leave of the first of them. -/
theorem first_byte {x y : Nat} (hx : x < 256) (hy : y < 256) :
    ((x / 4) <<< 2 ||| ((x * 16 + y / 16) % 64) >>> 4) % 256 = x := by
  rw [byte_or (by rw [Nat.shiftRight_eq_div_pow]; omega), Nat.shiftRight_eq_div_pow]
  omega

theorem second_byte {x y z : Nat} (hy : y < 256) (hz : z < 256) :
    (((x * 16 + y / 16) % 64) <<< 4 ||| ((y * 4 + z / 64) % 64) >>> 2) % 256 = y := by
  rw [byte_or (by rw [Nat.shiftRight_eq_div_pow]; omega), Nat.shiftRight_eq_div_pow]
  omega

theorem third_byte {y z : Nat} (hz : z < 256) : (((y * 4 + z / 64) % 64) <<< 6 ||| z % 64) % 256 = z := by
  have hlow : z % 64 < 2 ^ 6 := Nat.mod_lt _ (by decide)
  rw [byte_or hlow]
  omega

theorem final_index (x : Nat) : x <<< 4 &&& 0x3f = (x * 16 + 0 / 16) % 64 := by
  rw [Nat.shiftLeft_eq, Nat.and_two_pow_sub_one_eq_mod _ 6]
  rfl

theorem final_index' (y : Nat) : y <<< 2 &&& 0x3f = (y * 4 + 0 / 64) % 64 := by
  rw [Nat.shiftLeft_eq, Nat.and_two_pow_sub_one_eq_mod _ 6]
  rfl

theorem decode_fullGroup (x y z : u8) (rest : List u8) :
    decode (fullGroup x y z ++ rest) = x :: y :: z :: decode rest := by
  have hx := x.isLt
  have hy := y.isLt
  have hz := z.isLt
  have hd : z.toNat &&& 0x3f = z.toNat % 64 := Nat.and_two_pow_sub_one_eq_mod _ 6
  simp only [fullGroup, List.cons_append, List.nil_append, decode, fullBytes]
  rw [first_index, second_index _ _ hy, third_index _ _ hz, hd, fromBase64_toBase64 _ (by omega),
    fromBase64_toBase64 _ (Nat.mod_lt _ (by decide)), fromBase64_toBase64 _ (Nat.mod_lt _ (by decide)),
    fromBase64_toBase64 _ (Nat.mod_lt _ (by decide)), ofNat_eq (first_byte hx hy),
    ofNat_eq (second_byte hy hz), ofNat_eq (third_byte hz)]

theorem decode_finalBytes (x y : u8) : decode (finalBytes x y) = [x, y] := by
  have hx := x.isLt
  have hy := y.isLt
  simp only [finalBytes, decode, leftThree]
  rw [first_index, second_index _ _ hy, final_index', fromBase64_toBase64 _ (by omega),
    fromBase64_toBase64 _ (Nat.mod_lt _ (by decide)), fromBase64_toBase64 _ (Nat.mod_lt _ (by decide)),
    ofNat_eq (first_byte hx hy), ofNat_eq (second_byte hy (by decide))]

theorem decode_finalByte (x : u8) : decode (finalByte x) = [x] := by
  have hx := x.isLt
  simp only [finalByte, decode, leftTwo]
  rw [first_index, final_index, fromBase64_toBase64 _ (by omega),
    fromBase64_toBase64 _ (Nat.mod_lt _ (by decide)), ofNat_eq (first_byte hx (by decide))]

/-- The characters of some bytes give the bytes back. -/
theorem decode_encodeChars : ∀ data : List u8, decode (encodeChars data) = data
  | [] => rfl
  | [x] => decode_finalByte x
  | [x, y] => decode_finalBytes x y
  | x :: y :: z :: data => by rw [encodeChars, decode_fullGroup, decode_encodeChars data]

/-! ## Lengths and padding -/

theorem length_encodeChars (data : List u8) : (encodeChars data).length = (data.length * 4 + 2) / 3 := by
  induction data using encodeChars.induct with
  | case1 x y z data ih =>
    rw [encodeChars, List.length_append, ih]
    simp only [fullGroup, List.length_cons, List.length_nil]
    omega
  | case2 x y => simp only [encodeChars, finalBytes, List.length_cons, List.length_nil]
  | case3 x => simp only [encodeChars, finalByte, List.length_cons, List.length_nil]
  | case4 => rfl

theorem length_encode (data : List u8) : (encode data).length = (data.length + 2) / 3 * 4 := by
  rw [encode, List.length_append, length_encodeChars, List.length_replicate]
  omega

theorem length_decode (source : List u8) : (decode source).length = source.length * 3 / 4 := by
  induction source using decode.induct with
  | case1 a b c d source ih =>
    rw [decode, List.length_append, ih]
    simp only [fullBytes, List.length_cons, List.length_nil]
    omega
  | case2 a b c => simp only [decode, leftThree, List.length_cons, List.length_nil]
  | case3 a b => simp only [decode, leftTwo, List.length_cons, List.length_nil]
  | case4 source h4 h3 h2 =>
    match source, h4, h3, h2 with
    | [], _, _, _ => rfl
    | [a], _, _, _ => simp only [decode, List.length_cons, List.length_nil]
    | [a, b], _, _, h2 => exact absurd rfl (h2 a b)
    | [a, b, c], _, h3, _ => exact absurd rfl (h3 a b c)
    | a :: b :: c :: d :: source, h4, _, _ => exact absurd rfl (h4 a b c d source)

theorem encode_cons (x y z : u8) (data : List u8) :
    encode (x :: y :: z :: data) = fullGroup x y z ++ encode data := by
  have hpad : (3 - (x :: y :: z :: data).length % 3) % 3 = (3 - data.length % 3) % 3 := by
    simp only [List.length_cons]
    omega
  rw [encode, encode, hpad, encodeChars, List.append_assoc]

/-- No character of a byte is padding. -/
theorem encodeChars_ne_pad : ∀ data : List u8, ∀ c ∈ encodeChars data, c ≠ pad := by
  have hgroup : ∀ x y z : u8, ∀ c ∈ fullGroup x y z, c ≠ pad := by
    intro x y z c hc
    have hx := x.isLt
    have hd : z.toNat &&& 0x3f = z.toNat % 64 := Nat.and_two_pow_sub_one_eq_mod _ 6
    simp only [fullGroup, List.mem_cons, List.not_mem_nil, or_false] at hc
    rw [first_index, second_index _ _ y.isLt, third_index _ _ z.isLt, hd] at hc
    rcases hc with rfl | rfl | rfl | rfl
    · exact toBase64_ne_pad _ (by omega)
    all_goals exact toBase64_ne_pad _ (Nat.mod_lt _ (by decide))
  intro data
  induction data using encodeChars.induct with
  | case1 x y z data ih =>
    intro c hc
    rcases List.mem_append.mp hc with hc | hc
    · exact hgroup x y z c hc
    · exact ih c hc
  | case2 x y =>
    intro c hc
    simp only [encodeChars, finalBytes, List.mem_cons, List.not_mem_nil, or_false] at hc
    rw [first_index, second_index _ _ y.isLt, final_index'] at hc
    have hx := x.isLt
    rcases hc with rfl | rfl | rfl
    · exact toBase64_ne_pad _ (by omega)
    all_goals exact toBase64_ne_pad _ (Nat.mod_lt _ (by decide))
  | case3 x =>
    intro c hc
    simp only [encodeChars, finalByte, List.mem_cons, List.not_mem_nil, or_false] at hc
    rw [first_index, final_index] at hc
    have hx := x.isLt
    rcases hc with rfl | rfl
    · exact toBase64_ne_pad _ (by omega)
    · exact toBase64_ne_pad _ (Nat.mod_lt _ (by decide))
  | case4 => exact fun c hc => absurd hc List.not_mem_nil

theorem skipPad_le (source : List u8) : ∀ n, skipPad source n ≤ n
  | 0 => le_refl _
  | n + 1 => by
    rw [skipPad]
    split
    · exact (skipPad_le source n).trans (Nat.le_succ n)
    · exact le_refl _

/-- The padding is skipped, and no more. -/
theorem skipPad_append {chars : List u8} (hchars : ∀ c ∈ chars, c ≠ pad) (k : Nat) :
    skipPad (chars ++ List.replicate k pad) (chars.length + k) = chars.length := by
  have hstop : ∀ tail : List u8, skipPad (chars ++ tail) chars.length = chars.length := by
    intro tail
    cases hn : chars.length with
    | zero => rfl
    | succ n =>
      have hlast : n < chars.length := by omega
      rw [skipPad, List.getD_append _ _ _ _ hlast, List.getD_eq_getElem _ _ hlast,
        if_neg (hchars _ (List.getElem_mem hlast))]
  have hskip : ∀ j ≤ k, skipPad (chars ++ List.replicate k pad) (chars.length + j) = chars.length := by
    intro j
    induction j with
    | zero => exact fun _ => hstop _
    | succ j ih =>
      intro hj
      have hpad : (chars ++ List.replicate k pad).getD (chars.length + j) 0 = pad := by
        rw [List.getD_append_right _ _ _ _ (Nat.le_add_right _ _), Nat.add_sub_cancel_left,
          List.getD_eq_getElem _ _ (by rw [List.length_replicate]; omega), List.getElem_replicate]
      rw [← Nat.add_assoc, skipPad, if_pos hpad]
      exact ih (by omega)
  exact hskip k (le_refl k)

/-! ## The loops -/

theorem getD_of_drop {data rest : List u8} {ii : Nat} (h : data.drop ii = rest) (k : Nat) :
    data.getD (ii + k) 0 = rest.getD k 0 := by
  subst h
  rw [List.getD_eq_getElem?_getD, List.getD_eq_getElem?_getD, List.getElem?_drop]

theorem getD_of_drop' {data rest : List u8} {ii : Nat} (h : data.drop ii = rest) :
    data.getD ii 0 = rest.getD 0 0 := getD_of_drop h 0

theorem writeStreamLoop_end {data : List u8} {stop : Int} {ii : Nat} (h : ¬(ii : Int) < stop) (fuel : Nat)
    (output : List u8) : writeStreamLoop data stop fuel ii output = some (ii, output) := by
  cases fuel <;> exact if_neg h

/-- The stream writer, from any position in the data. -/
theorem writeStreamLoop_spec {data : List u8} (rest : List u8) : ∀ (fuel ii : Nat) (output : List u8),
    data.drop ii = rest → data.length = ii + rest.length → rest.length ≤ fuel →
      ∃ r, writeStreamLoop data (data.length - 2) fuel ii output = some r ∧
        writeStreamTail data (data.length - 2) r = output ++ encode rest := by
  induction rest using encodeChars.induct with
  | case1 x y z rest ih =>
    intro fuel ii output hdrop hlen hfuel
    simp only [List.length_cons] at hlen hfuel
    obtain ⟨fuel, rfl⟩ := Nat.exists_eq_succ_of_ne_zero (show fuel ≠ 0 by omega)
    have hrest : data.drop (ii + 3) = rest := by
      rw [← List.drop_drop, hdrop]
      rfl
    obtain ⟨r, hrun, htail⟩ := ih fuel (ii + 3) (output ++ fullGroup x y z) hrest (by omega) (by omega)
    refine ⟨r, ?_, ?_⟩
    · rw [writeStreamLoop, if_pos (by omega), getD_of_drop' hdrop, getD_of_drop hdrop 1,
        getD_of_drop hdrop 2]
      exact hrun
    · rw [htail, encode_cons, List.append_assoc]
  | case2 x y =>
    intro fuel ii output hdrop hlen hfuel
    simp only [List.length_cons, List.length_nil] at hlen hfuel
    have hlast : data.getD (data.length - 1) 0 = y := by
      rw [show data.length - 1 = ii + 1 by omega, getD_of_drop hdrop]
      rfl
    have hbefore : data.getD (data.length - 2) 0 = x := by
      rw [show data.length - 2 = ii + 0 by omega, getD_of_drop hdrop]
      rfl
    refine ⟨(ii, output), writeStreamLoop_end (by omega) .., ?_⟩
    dsimp only [writeStreamTail]
    rw [if_neg (by omega), if_pos (by omega), hlast, hbefore]
    rfl
  | case3 x =>
    intro fuel ii output hdrop hlen hfuel
    simp only [List.length_cons, List.length_nil] at hlen hfuel
    have hlast : data.getD (data.length - 1) 0 = x := by
      rw [show data.length - 1 = ii + 0 by omega, getD_of_drop hdrop]
      rfl
    refine ⟨(ii, output), writeStreamLoop_end (by omega) .., ?_⟩
    dsimp only [writeStreamTail]
    rw [if_pos (by omega), hlast]
    rfl
  | case4 =>
    intro fuel ii output hdrop hlen hfuel
    rw [List.length_nil] at hlen
    refine ⟨(ii, output), writeStreamLoop_end (by omega) .., ?_⟩
    dsimp only [writeStreamTail]
    rw [if_neg (by omega), if_neg (by omega)]
    exact (List.append_nil _).symm

/-- The buffer writer stores what the stream writer has written. -/
theorem writeLoop_sim (data : List u8) (stop : Int) : ∀ (fuel ii jj : Nat) (buffer : Nat → u8)
    (output : List u8) (r : Nat × List u8), writeStreamLoop data stop fuel ii output = some r →
      ∃ cs, r.2 = output ++ cs ∧
        writeLoop data stop fuel ii jj buffer = some (r.1, jj + cs.length, store buffer jj cs) := by
  intro fuel
  induction fuel with
  | zero =>
    intro ii jj buffer output r hrun
    rw [writeStreamLoop] at hrun
    split at hrun
    · cases hrun
    · next hstop =>
      obtain rfl := Option.some.inj hrun
      exact ⟨[], (List.append_nil _).symm, by rw [writeLoop, if_neg hstop]; rfl⟩
  | succ fuel ih =>
    intro ii jj buffer output r hrun
    rw [writeStreamLoop] at hrun
    rw [writeLoop]
    split at hrun
    · next hgo =>
      obtain ⟨cs, hout, hloop⟩ := ih _ (jj + 4) (store buffer jj (fullGroup (data.getD ii 0)
        (data.getD (ii + 1) 0) (data.getD (ii + 2) 0))) _ _ hrun
      refine ⟨_, hout.trans (List.append_assoc ..), ?_⟩
      rw [if_pos hgo, hloop, store_append, List.length_append, ← Nat.add_assoc]
      rfl
    · next hstop =>
      obtain rfl := Option.some.inj hrun
      exact ⟨[], (List.append_nil _).symm, by rw [if_neg hstop]; rfl⟩

theorem writeTail_sim (data : List u8) (stop : Int) (ii jj : Nat) (buffer : Nat → u8) (cs : List u8) :
    writeTail data stop (ii, jj + cs.length, store buffer jj cs) =
      store buffer jj (writeStreamTail data stop (ii, cs)) := by
  unfold writeTail writeStreamTail
  dsimp only
  split
  · exact (store_append _ _ _ _).symm
  · split
    · exact (store_append _ _ _ _).symm
    · rfl

theorem readStreamLoop_end {source : List u8} {stop : Int} {ii : Nat} (h : ¬(ii : Int) < stop) (fuel : Nat)
    (output : List u8) : readStreamLoop source stop fuel ii output = some (ii, output) := by
  cases fuel <;> exact if_neg h

/-- The stream reader, from any position that is a multiple of four. -/
theorem readStreamLoop_spec {source : List u8} {n : Nat} (rest : List u8) :
    ∀ (fuel ii : Nat) (output : List u8), (source.take n).drop ii = rest → n = ii + rest.length →
      ii % 4 = 0 → rest.length ≤ fuel → ∃ r, readStreamLoop source (n - 3) fuel ii output = some r ∧
        readStreamTail source n r = output ++ decode rest := by
  have hsource : ∀ (ii : Nat) (rest : List u8), (source.take n).drop ii = rest → n = ii + rest.length →
      ∀ k < rest.length, source.getD (ii + k) 0 = rest.getD k 0 := by
    intro ii rest hdrop hlen k hk
    rw [← getD_of_drop hdrop k, List.getD_eq_getElem?_getD, List.getD_eq_getElem?_getD,
      List.getElem?_take_of_lt (by omega)]
  have hand : n &&& 3 = n % 4 := Nat.and_two_pow_sub_one_eq_mod n 2
  induction rest using decode.induct with
  | case1 a b c d rest ih =>
    intro fuel ii output hdrop hlen hmod hfuel
    have hget := hsource ii _ hdrop hlen
    simp only [List.length_cons] at hlen hfuel hget
    obtain ⟨fuel, rfl⟩ := Nat.exists_eq_succ_of_ne_zero (show fuel ≠ 0 by omega)
    have hrest : (source.take n).drop (ii + 4) = rest := by
      rw [← List.drop_drop, hdrop]
      rfl
    obtain ⟨r, hrun, htail⟩ := ih fuel (ii + 4) (output ++ fullBytes a b c d) hrest (by omega) (by omega)
      (by omega)
    refine ⟨r, ?_, ?_⟩
    · rw [readStreamLoop, if_pos (by omega), ← Nat.add_zero ii, hget 0 (by omega)]
      rw [Nat.add_zero, hget 1 (by omega), hget 2 (by omega), hget 3 (by omega)]
      exact hrun
    · rw [htail, decode, List.append_assoc]
  | case2 a b c =>
    intro fuel ii output hdrop hlen hmod hfuel
    have hget := hsource ii _ hdrop hlen
    simp only [List.length_cons, List.length_nil] at hlen hfuel hget
    have hthree : n &&& 3 = 3 := by omega
    refine ⟨(ii, output), readStreamLoop_end (by omega) .., ?_⟩
    dsimp only [readStreamTail]
    rw [hthree, hget 1 (by omega), hget 2 (by omega), ← Nat.add_zero ii, hget 0 (by omega), decode]
    rfl
  | case3 a b =>
    intro fuel ii output hdrop hlen hmod hfuel
    have hget := hsource ii _ hdrop hlen
    simp only [List.length_cons, List.length_nil] at hlen hfuel hget
    have htwo : n &&& 3 = 2 := by omega
    refine ⟨(ii, output), readStreamLoop_end (by omega) .., ?_⟩
    dsimp only [readStreamTail]
    rw [htwo, hget 1 (by omega), ← Nat.add_zero ii, hget 0 (by omega), decode]
    rfl
  | case4 rest h4 h3 h2 =>
    intro fuel ii output hdrop hlen hmod hfuel
    have hshort : rest.length ≤ 1 := by
      match rest, h4, h3, h2 with
      | [], _, _, _ => exact Nat.zero_le 1
      | [a], _, _, _ => exact le_refl 1
      | [a, b], _, _, h2 => exact absurd rfl (h2 a b)
      | [a, b, c], _, h3, _ => exact absurd rfl (h3 a b c)
      | a :: b :: c :: d :: rest, h4, _, _ => exact absurd rfl (h4 a b c d rest)
    have hnone : decode rest = [] := by
      rw [← List.length_eq_zero_iff, length_decode]
      omega
    refine ⟨(ii, output), readStreamLoop_end (by omega) .., ?_⟩
    dsimp only [readStreamTail]
    rw [hnone, List.append_nil]
    split
    · omega
    · omega
    · rfl

/-- The buffer reader stores what the stream reader has read. -/
theorem readLoop_sim (source : List u8) (stop : Int) : ∀ (fuel ii jj : Nat) (buffer : Nat → u8)
    (output : List u8) (r : Nat × List u8), readStreamLoop source stop fuel ii output = some r →
      ∃ cs, r.2 = output ++ cs ∧
        readLoop source stop fuel ii jj buffer = some (r.1, jj + cs.length, store buffer jj cs) := by
  intro fuel
  induction fuel with
  | zero =>
    intro ii jj buffer output r hrun
    rw [readStreamLoop] at hrun
    split at hrun
    · cases hrun
    · next hstop =>
      obtain rfl := Option.some.inj hrun
      exact ⟨[], (List.append_nil _).symm, by rw [readLoop, if_neg hstop]; rfl⟩
  | succ fuel ih =>
    intro ii jj buffer output r hrun
    rw [readStreamLoop] at hrun
    rw [readLoop]
    split at hrun
    · next hgo =>
      obtain ⟨cs, hout, hloop⟩ := ih _ (jj + 3) (store buffer jj (fullBytes (source.getD ii 0)
        (source.getD (ii + 1) 0) (source.getD (ii + 2) 0) (source.getD (ii + 3) 0))) _ _ hrun
      refine ⟨_, hout.trans (List.append_assoc ..), ?_⟩
      rw [if_pos hgo, hloop, store_append, List.length_append, ← Nat.add_assoc]
      rfl
    · next hstop =>
      obtain rfl := Option.some.inj hrun
      exact ⟨[], (List.append_nil _).symm, by rw [if_neg hstop]; rfl⟩

theorem readTail_sim (source : List u8) (n ii jj : Nat) (buffer : Nat → u8) (cs : List u8) :
    readTail source n (ii, jj + cs.length, store buffer jj cs) =
      (store buffer jj (readStreamTail source n (ii, cs)),
        ((jj + (readStreamTail source n (ii, cs)).length : Nat) : Int)) := by
  unfold readTail readStreamTail
  dsimp only
  split
  · rw [store_append, List.length_append]
    rfl
  · rw [store_append, List.length_append]
    rfl
  · rfl

/-! ## The functions -/

theorem int_eq {z : Int} (h0 : 0 ≤ z) (h : z < 2 ^ 31) : int z = z := by
  exact Int.bmod_eq_of_le_mul_two (by omega) (by omega)

theorem encodedLength_eq {data : List u8} (hdata : data.length < 2 ^ 28) :
    int ((int ((data.length : Int) + 2)).tdiv 3 * 4) = (encode data).length := by
  rw [int_eq (z := (data.length : Int) + 2) (by omega) (by omega), Int.tdiv_eq_ediv_of_nonneg (by omega),
    int_eq (by omega) (by omega), length_encode]
  omega

theorem getBase64Length_eq {data : List u8} (hdata : data.length < 2 ^ 28) :
    getBase64LengthFromBinaryLength data.length = (encode data).length := by
  unfold getBase64LengthFromBinaryLength
  split
  · rw [length_encode]
    omega
  · exact encodedLength_eq hdata

/-- What a reader reads: the characters without the padding at the end. -/
def unpadded (source : List u8) : List u8 := source.take (skipPad source source.length)

theorem decodedLength_eq {source : List u8} (hsource : 3 * source.length < 2 ^ 31) :
    (int ((skipPad source source.length : Int) * 3)).tdiv 4 = (decode (unpadded source)).length := by
  have hle := skipPad_le source source.length
  rw [int_eq (by omega) (by omega), Int.tdiv_eq_ediv_of_nonneg (by omega), length_decode, unpadded,
    List.length_take_of_le hle]
  omega

theorem getBinaryLength_eq {source : List u8} (hsource : 3 * source.length < 2 ^ 31) :
    getBinaryLengthFromBase64Length source = (decode (unpadded source)).length := by
  unfold getBinaryLengthFromBase64Length
  split
  · next hzero =>
    rw [List.length_eq_zero_iff.mp hzero]
    rfl
  · exact decodedLength_eq hsource

section Functions

variable {fuel : Nat}

theorem writeBase64Stream_eq {data : List u8} (hdata : data.length < 2 ^ 28) (hfuel : data.length ≤ fuel) :
    writeBase64Stream fuel data = some (encode data, ((encode data).length : Int)) := by
  unfold writeBase64Stream
  dsimp only
  split
  · next hempty =>
    obtain rfl := List.length_eq_zero_iff.mp (by omega : data.length = 0)
    rfl
  · obtain ⟨r, hrun, htail⟩ := writeStreamLoop_spec data fuel 0 [] rfl (Nat.zero_add _).symm hfuel
    rw [hrun, Option.map_some, htail, encodedLength_eq hdata, List.nil_append]

theorem writeBase64_eq {data : List u8} (hdata : data.length < 2 ^ 28) (hfuel : data.length ≤ fuel)
    (buffer : Nat → u8) (size : Int) : writeBase64 fuel data buffer size =
      if size < (encode data).length then some (buffer, 0)
      else some (overwrite buffer (encode data), ((encode data).length : Int)) := by
  unfold writeBase64
  dsimp only
  rw [encodedLength_eq hdata]
  by_cases hempty : (data.length : Int) ≤ 0
  · obtain rfl := List.length_eq_zero_iff.mp (by omega : data.length = 0)
    rw [if_pos (.inl hempty)]
    split <;> rfl
  · by_cases hsmall : size < (encode data).length
    · rw [if_pos (.inr hsmall), if_pos hsmall]
    · rw [if_neg (not_or.mpr ⟨hempty, hsmall⟩), if_neg hsmall]
      obtain ⟨r, hrun, htail⟩ := writeStreamLoop_spec data fuel 0 [] rfl (Nat.zero_add _).symm hfuel
      obtain ⟨cs, hout, hloop⟩ := writeLoop_sim data _ fuel 0 0 buffer [] r hrun
      rw [hloop, Option.map_some, writeTail_sim, ← store_zero]
      congr 3
      rw [← hout.trans (List.nil_append cs)]
      exact htail

theorem readBase64Stream_eq {source : List u8} (hsource : 3 * source.length < 2 ^ 31)
    (hfuel : source.length ≤ fuel) : readBase64Stream fuel source =
      some (decode (unpadded source), ((decode (unpadded source)).length : Int)) := by
  have hle := skipPad_le source source.length
  unfold readBase64Stream
  dsimp only
  rw [decodedLength_eq hsource]
  split
  · next hzero =>
    rw [unpadded, hzero]
    rfl
  · obtain ⟨r, hrun, htail⟩ := readStreamLoop_spec (unpadded source) fuel 0 [] rfl
      (by rw [unpadded, List.length_take_of_le hle, Nat.zero_add]) rfl
      (by rw [unpadded, List.length_take_of_le hle]; omega)
    rw [hrun, Option.map_some, htail, List.nil_append]

theorem readBase64_eq {source : List u8} (hsource : 3 * source.length < 2 ^ 31)
    (hfuel : source.length ≤ fuel) (buffer : Nat → u8) (size : Int) : readBase64 fuel source buffer size =
      if size < (decode (unpadded source)).length then some (buffer, 0)
      else some (overwrite buffer (decode (unpadded source)),
        ((decode (unpadded source)).length : Int)) := by
  have hle := skipPad_le source source.length
  have hnone : (decode (unpadded source)).length = 0 →
      overwrite buffer (decode (unpadded source)) = buffer := fun h => by
    rw [List.length_eq_zero_iff.mp h]
    rfl
  unfold readBase64
  dsimp only
  rw [decodedLength_eq hsource]
  by_cases hzero : skipPad source source.length = 0
  · have hempty : decode (unpadded source) = [] := by
      rw [unpadded, hzero]
      rfl
    rw [if_pos (.inl hzero), hempty]
    split <;> rfl
  · by_cases hsmall : size ≤ 0 ∨ size < (decode (unpadded source)).length
    · rw [if_pos (.inr hsmall)]
      split
      · rfl
      · next hlarge =>
        have hlen : (decode (unpadded source)).length = 0 := by omega
        rw [hnone hlen, hlen]
        rfl
    · rw [not_or] at hsmall
      rw [if_neg (not_or.mpr ⟨hzero, not_or.mpr hsmall⟩), if_neg hsmall.2]
      obtain ⟨r, hrun, htail⟩ := readStreamLoop_spec (unpadded source) fuel 0 [] rfl
        (by rw [unpadded, List.length_take_of_le hle, Nat.zero_add]) rfl
        (by rw [unpadded, List.length_take_of_le hle]; omega)
      obtain ⟨cs, hout, hloop⟩ := readLoop_sim source _ fuel 0 0 buffer [] r hrun
      have hr : r = (r.1, cs) := Prod.ext rfl (hout.trans (List.nil_append cs))
      rw [hr, List.nil_append] at htail
      rw [hloop, Option.map_some, readTail_sim, htail, Nat.zero_add, store_zero]

end Functions

/-- What the writers write, the readers read. -/
theorem unpadded_encode (data : List u8) : unpadded (encode data) = encodeChars data := by
  have hlen : (encode data).length = (encodeChars data).length + (3 - data.length % 3) % 3 := by
    rw [encode, List.length_append, List.length_replicate]
  rw [unpadded, hlen]
  unfold encode
  rw [skipPad_append (encodeChars_ne_pad data), List.take_left]

/-- `WriteBase64Str` where there is room for the terminator. -/
theorem writeBase64Str_eq {fuel : Nat} {data : List u8} (hdata : data.length < 2 ^ 28)
    (hfuel : data.length ≤ fuel) (buffer : Nat → u8) (size : Int) : writeBase64Str fuel data buffer size =
      if size ≤ (encode data).length then some (Function.update buffer 0 0, 0)
      else some (overwrite buffer (encode data ++ [0]), ((encode data).length : Int)) := by
  unfold writeBase64Str
  rw [writeBase64_eq hdata hfuel]
  by_cases hsmall : size ≤ (encode data).length
  · rw [if_pos (by omega), if_pos hsmall]
    rfl
  · rw [if_neg (by omega), if_neg hsmall, Option.map_some, Int.toNat_natCast, ← store_zero, ← store_zero,
      store_append, Nat.zero_add]
    rfl

/-- **Everything that is written is read back**, by each writer and each reader, and the return values
are the numbers of what is written and what the length functions say. Both readers do the same with any
other input. A buffer that is too small is not written to, but for the terminator at its front. -/
theorem base64 (data source : List u8) (buffer : Nat → u8) (fuel : Nat) (hdata : data.length < 2 ^ 28)
    (hsource : 3 * source.length < 2 ^ 31) (hfuel : 2 * data.length + 4 ≤ fuel)
    (hfuel' : source.length ≤ fuel) :
    (∃ chars : List u8, (chars.length : Int) = getBase64LengthFromBinaryLength data.length ∧
      writeBase64Stream fuel data = some (chars, (chars.length : Int)) ∧
      (∀ size, getBase64LengthFromBinaryLength data.length ≤ size →
        writeBase64 fuel data buffer size = some (overwrite buffer chars, (chars.length : Int))) ∧
      (∀ size, getBase64LengthFromBinaryLength data.length + 1 ≤ size →
        writeBase64Str fuel data buffer size = some (overwrite buffer (chars ++ [0]), (chars.length : Int))) ∧
      getBinaryLengthFromBase64Length chars = data.length ∧
      readBase64Stream fuel chars = some (data, (data.length : Int)) ∧
      ∀ size, getBinaryLengthFromBase64Length chars ≤ size →
        readBase64 fuel chars buffer size = some (overwrite buffer data, (data.length : Int))) ∧
    (∃ bytes : List u8, (bytes.length : Int) = getBinaryLengthFromBase64Length source ∧
      readBase64Stream fuel source = some (bytes, (bytes.length : Int)) ∧
      ∀ size, getBinaryLengthFromBase64Length source ≤ size →
        readBase64 fuel source buffer size = some (overwrite buffer bytes, (bytes.length : Int))) ∧
    ∀ size : Int, 0 < size →
      (size < getBase64LengthFromBinaryLength data.length →
        writeBase64 fuel data buffer size = some (buffer, 0)) ∧
      (size < getBase64LengthFromBinaryLength data.length + 1 →
        ∃ written, writeBase64Str fuel data buffer size = some (written, 0) ∧
          ∀ i : Nat, size ≤ i → written i = buffer i) ∧
      (size < getBinaryLengthFromBase64Length source →
        readBase64 fuel source buffer size = some (buffer, 0)) := by
  have hlength := length_encode data
  have hchars : 3 * (encode data).length < 2 ^ 31 := by omega
  have hcharsFuel : (encode data).length ≤ fuel := by omega
  have hback : decode (unpadded (encode data)) = data := by
    rw [unpadded_encode, decode_encodeChars]
  have hread := readBase64_eq hchars hcharsFuel buffer
  have hstream := readBase64Stream_eq hchars hcharsFuel
  have hbinary := getBinaryLength_eq hchars
  rw [hback] at hstream hbinary
  simp only [hback] at hread
  have hdataFuel : data.length ≤ fuel := by omega
  rw [getBase64Length_eq hdata, getBinaryLength_eq hsource]
  refine ⟨⟨encode data, rfl, writeBase64Stream_eq hdata hdataFuel, fun size hsize => ?_,
    fun size hsize => ?_, hbinary, hstream, fun size hsize => ?_⟩, ⟨decode (unpadded source), rfl,
    readBase64Stream_eq hsource hfuel', fun size hsize => ?_⟩, fun size hpos => ⟨fun hsize => ?_,
    fun hsize => ?_, fun hsize => ?_⟩⟩
  · rw [writeBase64_eq hdata hdataFuel, if_neg (by omega)]
  · rw [writeBase64Str_eq hdata hdataFuel, if_neg (by omega)]
  · rw [hread, if_neg (by omega)]
  · rw [readBase64_eq hsource hfuel', if_neg (by omega)]
  · rw [writeBase64_eq hdata hdataFuel, if_pos hsize]
  · refine ⟨Function.update buffer 0 0, ?_, fun i hi => Function.update_of_ne (by omega) _ _⟩
    rw [writeBase64Str_eq hdata hdataFuel, if_pos (by omega)]
  · rw [readBase64_eq hsource hfuel', if_pos hsize]

/-- Five bytes, and an input with a character that is left over. -/
theorem base64_five :
    (∃ chars : List u8, (chars.length : Int) = getBase64LengthFromBinaryLength 5 ∧
      writeBase64Stream 14 [1, 2, 3, 4, 255] = some (chars, (chars.length : Int)) ∧
      readBase64Stream 14 chars = some ([1, 2, 3, 4, 255], 5)) ∧
    ∃ bytes : List u8, (bytes.length : Int) = getBinaryLengthFromBase64Length [65, 66, 67, 68, 69] ∧
      readBase64Stream 14 [65, 66, 67, 68, 69] = some (bytes, (bytes.length : Int)) ∧
      ∀ size, getBinaryLengthFromBase64Length [65, 66, 67, 68, 69] ≤ size →
        readBase64 14 [65, 66, 67, 68, 69] (fun _ => 0) size =
          some (overwrite (fun _ => 0) bytes, (bytes.length : Int)) := by
  obtain ⟨⟨chars, hlength, hwrite, -, -, -, hread, -⟩, hother, -⟩ :=
    base64 [1, 2, 3, 4, 255] [65, 66, 67, 68, 69] (fun _ => 0) 14 (by decide) (by decide) (by decide)
      (by decide)
  exact ⟨⟨chars, hlength, hwrite, hread⟩, hother⟩

end Spec

end Libcat.Parse.Base64
