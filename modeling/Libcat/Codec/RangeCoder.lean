import Libcat.Codec.SymbolTable
import Libcat.Math.BitMath

/-!
# RangeEncoder and RangeDecoder

A carry-less range coder. Both sides keep `low` and `range`, the interval that the bytes to come have
to be in, and shift out the top byte of `low` as soon as the interval lies within it; an interval that
has become too short is cut at the next multiple of `MaxRange` for that. The decoder's `code` is the
window of eight bytes on the message.

- `keepsOn_spec`: one round of `Normalize`. A window in the next interval is in this one.
- `Step`: what an encoding function and the decoding one have to do with each other.
- `step_scaled`: a call that takes part of the interval, `step_first`: the first call of all.
-/

namespace Libcat.Codec.RangeCoder

open SymbolTable

section Model

def Top : u64 := 1 <<< 56
def MaxRange : u64 := 1 <<< 48

/-- The loops of `Normalize` go on, with this range. -/
def keepsOn (low range : u64) : Option u64 :=
  if (low ^^^ (low + range)) < Top then some range
  else if range < MaxRange then some (-low &&& (MaxRange - 1))
  else none

/-! ## The encoder -/

structure RangeEncoder where
  /-- What is written; `none` is the null pointer of a failure. -/
  output : Option (List u8)
  limit : Nat
  remaining : Nat
  low : u64
  range : u64

namespace RangeEncoder

/-- The constructor leaves `low` as it is. -/
def new (stray : u64) (limit : Nat) : RangeEncoder := ⟨some [], limit, limit, stray, 0⟩

/-- `Used`. -/
def used (e : RangeEncoder) : Nat := e.limit - e.remaining

/-- `*output++ = (u8)(low >> 56)`. -/
def put (e : RangeEncoder) : RangeEncoder :=
  { e with
    output := e.output.map (· ++ [(e.low >>> 56).setWidth 8])
    remaining := e.remaining - 1 }

/-- The loop of `Normalize`, by the bytes that remain. -/
def normalizeLoop : Nat → RangeEncoder → RangeEncoder
  | 0, e =>
    match keepsOn e.low e.range with
    | none => e
    | some range => { e with output := none, range := range }
  | remaining + 1, e =>
    match keepsOn e.low e.range with
    | none => e
    | some range => normalizeLoop remaining { e.put with range := range <<< 8, low := e.low <<< 8 }

/-- `Normalize`. -/
def normalize (e : RangeEncoder) : RangeEncoder := normalizeLoop e.remaining e

/-- `BiasedBit`. -/
def biasedBit (b frequency : u32) (e : RangeEncoder) : RangeEncoder :=
  if e.range = 0 then
    if b ≠ 0 then
      { e with
        low := frequency.setWidth 64 <<< 32
        range := (-frequency).signExtend 64 <<< 32 }
    else { e with low := 0, range := frequency.setWidth 64 <<< 32 }
  else
    let e := e.normalize
    let range := e.range >>> 32
    if b ≠ 0 then
      { e with
        low := e.low + frequency.setWidth 64 * range
        range := range * (-frequency).setWidth 64 }
    else { e with range := range * frequency.setWidth 64 }

/-- `Range`. -/
def equalRange (symbol total : u32) (e : RangeEncoder) : RangeEncoder :=
  if e.range = 0 then
    let range := 0xffffffffffffffff / total.setWidth 64
    { e with range := range, low := symbol.setWidth 64 * range }
  else
    let e := e.normalize
    let range := e.range / total.setWidth 64
    { e with range := range, low := e.low + symbol.setWidth 64 * range }

/-- A symbol with the order-1 statistics: `last` and `symbol_low`. -/
def tableSymbol (stats : TableFormat) (last : Nat) (ch : u8) (e : RangeEncoder) :
    Option (Nat × Nat × RangeEncoder) := do
  let e := e.normalize
  let (last, symbol_low, symbol_range) ← encoderGetTableSymbol stats last ch.toNat
  let range := e.range >>> 16
  some (last, symbol_low, { e with
    low := e.low + BitVec.ofNat 64 symbol_low * range
    range := range * BitVec.ofNat 64 symbol_range })

/-- The loop of `Text` with these: how many characters it encodes. -/
def textLoop (stats : TableFormat) : List u8 → Nat → RangeEncoder → Option (Nat × RangeEncoder)
  | [], _, _ => none
  | ch :: msg, last, e => do
    let (last, symbol_low, e) ← e.tableSymbol stats last ch
    if symbol_low ≠ 0 then
      let (len, e) ← textLoop stats msg last e
      some (len + 1, e)
    else some (1, e)

/-- A symbol with the uniform distribution. -/
def uniformSymbol (stats : TableFormat) (ch : u8) (e : RangeEncoder) : RangeEncoder :=
  let e := e.normalize
  let range := e.range / BitVec.ofNat 64 stats.total
  { e with
    range := range
    low := e.low + BitVec.ofNat 64 (stats.char2index ch.toNat) * range }

/-- The loop of `Text` with these. -/
def uniformLoop (stats : TableFormat) : List u8 → RangeEncoder → Option RangeEncoder
  | [], _ => none
  | ch :: msg, e =>
    let e := e.uniformSymbol stats ch
    if ch ≠ 0 then uniformLoop stats msg e else some e

/-- `Text` of a string, its terminator included. -/
def text (msg : List u8) (stats : TableFormat) (e : RangeEncoder) : Option RangeEncoder := do
  let backup := e
  let (len, e) ← textLoop stats msg 0 (e.biasedBit 0 0xff000000)
  if backup.remaining - e.remaining ≥ (len * stats.log2total) >>> 15 then
    uniformLoop stats msg (backup.biasedBit 1 0xff000000)
  else some e

/-- The final byte or two. -/
def finalBytes (e : RangeEncoder) : RangeEncoder :=
  if e.remaining = 0 then { e with output := none }
  else
    let e := { e with low := e.low + e.range - 1 }.put
    if e.range < Top then
      let e := { e with low := e.low <<< 8 }
      if e.remaining = 0 then { e with output := none } else e.put
    else e

/-- `Finish`. -/
def finish (e : RangeEncoder) : RangeEncoder :=
  let e := e.normalize
  if e.low = 0 then e else e.finalBytes

end RangeEncoder

/-! ## The decoder -/

structure RangeDecoder where
  input : List u8
  code : u64
  low : u64
  range : u64

namespace RangeDecoder

/-- The constructor, which leaves `low` as it is: up to eight bytes of the frequency code. -/
def new (stray : u64) (message : List u8) : RangeDecoder where
  input := message.drop 8
  code := (List.range 8).foldl (fun code i => code <<< 8 ||| (message.getD i 0).setWidth 64) 0
  low := stray
  range := 0

/-- The loop of `Normalize`. -/
def normalize : Nat → RangeDecoder → Option RangeDecoder
  | 0, _ => none
  | fuel + 1, d =>
    match keepsOn d.low d.range with
    | none => some d
    | some range =>
      let code := d.code <<< 8
      let (code, input) := match d.input with
        | [] => (code, [])
        | byte :: input => (code ||| byte.setWidth 64, input)
      normalize fuel ⟨input, code, d.low <<< 8, range <<< 8⟩

/-- `BiasedBit`. -/
def biasedBit (fuel : Nat) (frequency : u32) (d : RangeDecoder) : Option (u32 × RangeDecoder) :=
  if d.range = 0 then
    if (d.code >>> 32).setWidth 32 < frequency then
      some (0, { d with low := 0, range := frequency.setWidth 64 <<< 32 })
    else
      some (1, { d with
        low := frequency.setWidth 64 <<< 32
        range := (-frequency).signExtend 64 <<< 32 })
  else do
    let d ← d.normalize fuel
    let range := d.range >>> 32
    let x := ((d.code - d.low) / range).setWidth 32
    if x < frequency then some (0, { d with range := range * frequency.setWidth 64 })
    else
      some (1, { d with
        low := d.low + frequency.setWidth 64 * range
        range := range * (-frequency).setWidth 64 })

/-- `Range`. -/
def equalRange (fuel : Nat) (total : u32) (d : RangeDecoder) : Option (u32 × RangeDecoder) :=
  if d.range = 0 then
    let range := 0xffffffffffffffff / total.setWidth 64
    let symbol := (d.code / range).setWidth 32
    some (symbol, { d with range := range, low := symbol.setWidth 64 * range })
  else do
    let d ← d.normalize fuel
    let range := d.range / total.setWidth 64
    let symbol := ((d.code - d.low) / range).setWidth 32
    some (symbol, { d with range := range, low := d.low + symbol.setWidth 64 * range })

/-- A symbol of the uniform model. -/
def uniformSymbol (fuel : Nat) (stats : TableFormat) (d : RangeDecoder) :
    Option (u8 × RangeDecoder) := do
  let d ← d.normalize fuel
  let range := d.range / BitVec.ofNat 64 stats.total
  let symbol := ((d.code - d.low) / range).setWidth 8
  some (symbol, { d with range := range, low := d.low + symbol.setWidth 64 * range })

/-- The loop of `Text` with the uniform model, by the characters that there is room for. -/
def uniformLoop (fuel : Nat) (stats : TableFormat) :
    Nat → RangeDecoder → Option (List u8 × RangeDecoder)
  | 0, d => some ([], d)
  | room + 1, d => do
    let (symbol, d) ← d.uniformSymbol fuel stats
    let last : u8 := BitVec.ofNat 8 (stats.index2char symbol.toNat)
    if last = 0 then some ([], d)
    else
      let (msg, d) ← uniformLoop fuel stats room d
      some (last :: msg, d)

/-- A symbol of the order-1 static model. -/
def tableSymbol (fuel : Nat) (stats : TableFormat) (last : Nat) (d : RangeDecoder) :
    Option (Nat × RangeDecoder) := do
  let d ← d.normalize fuel
  let range := d.range >>> 16
  let x := ((d.code - d.low) / range).setWidth 16
  let (symbol, symbol_low, symbol_range) ← decoderGetTableSymbol fuel stats last x.toNat
  some (symbol, { d with
    low := d.low + BitVec.ofNat 64 symbol_low * range
    range := range * BitVec.ofNat 64 symbol_range })

/-- The loop of `Text` with the order-1 static model. -/
def textLoop (fuel : Nat) (stats : TableFormat) :
    Nat → Nat → RangeDecoder → Option (List u8 × RangeDecoder)
  | 0, _, d => some ([], d)
  | room + 1, last, d => do
    let (symbol, d) ← d.tableSymbol fuel stats last
    if symbol = 0 then some ([], d)
    else
      let (msg, d) ← textLoop fuel stats room symbol d
      some (BitVec.ofNat 8 (stats.index2char symbol) :: msg, d)

/-- `Text`: the string in the buffer. -/
def text (fuel buffer_size : Nat) (stats : TableFormat) (d : RangeDecoder) :
    Option (List u8 × RangeDecoder) := do
  let (uniform, d) ← d.biasedBit fuel 0xff000000
  if uniform ≠ 0 then uniformLoop fuel stats (buffer_size - 1) d
  else textLoop fuel stats (buffer_size - 1) 0 d

end RangeDecoder

/-! ## Fields -/

/-- What one call encodes. -/
inductive Field where
  | biasedBit (b frequency : u32)
  | range (symbol total : u32)
  | text (msg : List u8) (buffer_size : Nat) (stats : TableFormat)

/-- What one call decodes. -/
inductive Value where
  | number (x : u32)
  | text (msg : List u8)
  deriving DecidableEq, Repr

def Field.encode (e : RangeEncoder) : Field → Option RangeEncoder
  | .biasedBit b frequency => some (e.biasedBit b frequency)
  | .range symbol total => some (e.equalRange symbol total)
  | .text msg _ stats => e.text (msg ++ [0]) stats

def Field.decode (fuel : Nat) (d : RangeDecoder) : Field → Option (Value × RangeDecoder)
  | .biasedBit _ frequency => (d.biasedBit fuel frequency).map fun r => (.number r.1, r.2)
  | .range _ total => (d.equalRange fuel total).map fun r => (.number r.1, r.2)
  | .text _ buffer_size stats => (d.text fuel buffer_size stats).map fun r => (.text r.1, r.2)

/-- The value of a field. -/
def Field.value : Field → Value
  | .biasedBit b _ => .number (if b ≠ 0 then 1 else 0)
  | .range symbol _ => .number symbol
  | .text msg _ _ => .text msg

def encodeFields : List Field → RangeEncoder → Option RangeEncoder
  | [], e => some e
  | f :: fields, e => do
    let e ← f.encode e
    encodeFields fields e

def decodeFields (fuel : Nat) : List Field → RangeDecoder → Option (List Value × RangeDecoder)
  | [], d => some ([], d)
  | f :: fields, d => do
    let (v, d) ← f.decode fuel d
    let (values, d) ← decodeFields fuel fields d
    some (v :: values, d)

end Model

section Spec

/-! ## Windows on the message -/

def byteAt (F : List u8) (i : Nat) : Nat := (F.getD i 0).toNat

/-- Eight bytes of the message, and zeroes behind its end. -/
@[irreducible] def window (F : List u8) (k : Nat) : Nat :=
  (List.range 8).foldl (fun v j => v * 2 ^ 8 + byteAt F (k + j)) 0

theorem byteAt_lt (F : List u8) (i : Nat) : byteAt F i < 2 ^ 8 := BitVec.isLt _

theorem byteAt_of_le {F : List u8} {i : Nat} (h : F.length ≤ i) : byteAt F i = 0 := by
  rw [byteAt, List.getD_eq_default _ _ h]
  rfl

theorem window_eq (F : List u8) (k : Nat) : window F k =
    byteAt F k * 2 ^ 56 + byteAt F (k + 1) * 2 ^ 48 + byteAt F (k + 2) * 2 ^ 40 +
      byteAt F (k + 3) * 2 ^ 32 + byteAt F (k + 4) * 2 ^ 24 + byteAt F (k + 5) * 2 ^ 16 +
      byteAt F (k + 6) * 2 ^ 8 + byteAt F (k + 7) := by
  have hrange : List.range 8 = [0, 1, 2, 3, 4, 5, 6, 7] := rfl
  rw [window, hrange]
  simp only [List.foldl_cons, List.foldl_nil, Nat.add_zero]
  omega

theorem window_lt (F : List u8) (k : Nat) : window F k < 2 ^ 64 := by
  have hb := byteAt_lt F
  rw [window_eq]
  have := hb k
  have := hb (k + 1)
  have := hb (k + 2)
  have := hb (k + 3)
  have := hb (k + 4)
  have := hb (k + 5)
  have := hb (k + 6)
  have := hb (k + 7)
  omega

/-- The window a byte on. -/
theorem window_succ (F : List u8) (k : Nat) :
    window F k * 2 ^ 8 + byteAt F (k + 8) = byteAt F k * 2 ^ 64 + window F (k + 1) := by
  rw [window_eq, window_eq]
  simp only [Nat.add_assoc, Nat.reduceAdd]
  omega

theorem window_of_le {F : List u8} {k : Nat} (h : F.length ≤ k) : window F k = 0 := by
  rw [window_eq]
  simp only [byteAt_of_le (Nat.le_add_right_of_le h), byteAt_of_le h, Nat.zero_mul]

/-! ## Normalize -/

theorem xor_lt_top (x y : u64) : (x ^^^ y) < Top ↔ x.toNat / 2 ^ 56 = y.toNat / 2 ^ 56 := by
  rw [BitVec.lt_def, BitVec.toNat_xor, show Top.toNat = 2 ^ 56 from rfl]
  rw [← Nat.div_eq_zero_iff_lt (by decide), Nat.xor_div_two_pow, Nat.xor_eq_zero_iff]

theorem shl_toNat (x : u64) : (x <<< 8).toNat = x.toNat % 2 ^ 56 * 2 ^ 8 := by
  rw [BitVec.toNat_shiftLeft, Nat.shiftLeft_eq]
  omega

theorem cut_toNat (low : u64) : (-low &&& (MaxRange - 1)).toNat = (2 ^ 64 - low.toNat) % 2 ^ 48 := by
  rw [BitVec.toNat_and, show (MaxRange - 1).toNat = 2 ^ 48 - 1 from rfl,
    Nat.and_two_pow_sub_one_eq_mod, BitVec.toNat_neg]
  omega

theorem keepsOn_none {low range : u64} (h : keepsOn low range = none) : 2 ^ 48 ≤ range.toNat := by
  unfold keepsOn at h
  split at h
  · cases h
  · split at h
    · cases h
    · next hmax => exact Nat.le_of_not_lt hmax

/-- The interval a byte on, and what is in it. -/
structure Shifted (low range r : u64) : Prop where
  pos : r <<< 8 ≠ 0
  le : (low <<< 8).toNat + (r <<< 8).toNat ≤ 2 ^ 64
  holds : ∀ w, (low <<< 8).toNat ≤ w → w < (low <<< 8).toNat + (r <<< 8).toNat → w < 2 ^ 64 →
    low.toNat ≤ low.toNat / 2 ^ 56 * 2 ^ 56 + w / 2 ^ 8 ∧
      low.toNat / 2 ^ 56 * 2 ^ 56 + w / 2 ^ 8 < low.toNat + range.toNat

/-- The interval lies within the top byte, or reaches to the end of all. -/
theorem shifted_same {low range : u64} (hpos : 0 < range.toNat)
    (hle : low.toNat + range.toNat ≤ 2 ^ 64)
    (hsame : low.toNat / 2 ^ 56 = (low.toNat + range.toNat) % 2 ^ 64 / 2 ^ 56) :
    Shifted low range range := by
  have := range.isLt
  have hr : (range <<< 8).toNat = range.toNat % 2 ^ 56 * 2 ^ 8 := shl_toNat range
  have hl : (low <<< 8).toNat = low.toNat % 2 ^ 56 * 2 ^ 8 := shl_toNat low
  refine ⟨fun h => ?_, ?_, fun w hlo hhi hw => ?_⟩
  · have h0 : (range <<< 8).toNat = 0 := congrArg BitVec.toNat h
    omega
  · omega
  · omega

/-- The interval is cut where the top byte ends. -/
theorem shifted_cut {low range r : u64} (hmax : range.toNat < 2 ^ 48)
    (hr : r.toNat = (2 ^ 64 - low.toNat) % 2 ^ 48)
    (hne : low.toNat / 2 ^ 56 ≠ (low.toNat + range.toNat) % 2 ^ 64 / 2 ^ 56) :
    Shifted low range r := by
  have hr8 : (r <<< 8).toNat = r.toNat % 2 ^ 56 * 2 ^ 8 := shl_toNat r
  have hl : (low <<< 8).toNat = low.toNat % 2 ^ 56 * 2 ^ 8 := shl_toNat low
  have hcut : low.toNat + r.toNat = (low.toNat / 2 ^ 56 + 1) * 2 ^ 56 ∧ 0 < r.toNat ∧
      r.toNat ≤ range.toNat := by omega
  refine ⟨fun h => ?_, ?_, fun w hlo hhi hw => ?_⟩
  · have h0 : (r <<< 8).toNat = 0 := congrArg BitVec.toNat h
    omega
  · omega
  · omega

theorem keepsOn_spec {low range r : u64} (hpos : range ≠ 0) (hle : low.toNat + range.toNat ≤ 2 ^ 64)
    (h : keepsOn low range = some r) : Shifted low range r := by
  have hpos' : 0 < range.toNat := Nat.pos_of_ne_zero fun h => hpos (BitVec.eq_of_toNat_eq h)
  unfold keepsOn at h
  split at h
  · next hsame =>
    cases h
    rw [xor_lt_top, BitVec.toNat_add] at hsame
    exact shifted_same hpos' hle hsame
  · next hne =>
    rw [xor_lt_top, BitVec.toNat_add] at hne
    split at h
    · next hmax =>
      cases h
      exact shifted_cut hmax (cut_toNat low) hne
    · cases h

/-! ## An encoding call against a decoding call -/

/-- There is an interval. -/
def Open (e : RangeEncoder) : Prop := e.range ≠ 0 ∧ e.low.toNat + e.range.toNat ≤ 2 ^ 64

/-- There is one, or nothing is encoded yet. -/
def Ready (e : RangeEncoder) : Prop := e.range = 0 ∨ Open e

/-- The window at `k` is in the interval. -/
def Holds (F : List u8) (k : Nat) (e : RangeEncoder) : Prop :=
  e.range = 0 ∨ e.low.toNat ≤ window F k ∧ window F k < e.low.toNat + e.range.toNat

/-- The decoder is where the encoder was. -/
structure Tracks (F : List u8) (k : Nat) (e : RangeEncoder) (d : RangeDecoder) : Prop where
  input : d.input = F.drop (k + 8)
  code : d.code.toNat = window F k
  range : d.range = e.range
  low : e.range ≠ 0 → d.low = e.low

/-- What the bytes of `e'` say of those of `e`. -/
structure Linked {α : Type} (e : RangeEncoder) (out : List u8) (e' : RangeEncoder) (out' : List u8)
    (decode : Nat → RangeDecoder → Option (α × RangeDecoder)) (v : α) (exact : Prop) : Prop where
  opened : Open e'
  holds : ∀ F, out' <+: F → Holds F out'.length e' → Holds F out.length e
  decodes : ∀ F fuel d, out' <+: F → Holds F out'.length e' → F.length < fuel → 256 ≤ fuel →
    Tracks F out.length e d →
      ∃ d', decode fuel d = some (v, d') ∧ (exact → Tracks F out'.length e' d')

/-- `e'` is `e` with one value more, and `decode` reads it; it then is where `e'` is if `exact`. -/
def Step {α : Type} (pre : RangeEncoder → Prop) (e e' : RangeEncoder)
    (decode : Nat → RangeDecoder → Option (α × RangeDecoder)) (v : α) (exact : Prop) : Prop :=
  e'.limit = e.limit ∧ ∀ out', e'.output = some out' → ∃ out, e.output = some out ∧ out <+: out' ∧
    e'.remaining + out'.length = e.remaining + out.length ∧
    (pre e → Linked e out e' out' decode v exact)

variable {α β : Type} {e e' e'' : RangeEncoder} {v : α} {w : β} {exact : Prop}
  {pre : RangeEncoder → Prop}
  {decode : Nat → RangeDecoder → Option (α × RangeDecoder)}
  {decode' : α → Nat → RangeDecoder → Option (β × RangeDecoder)}

theorem Step.bind (h : Step pre e e' decode v True) (h' : Step Open e' e'' (decode' v) w exact) :
    Step pre e e'' (fun fuel d => decode fuel d >>= fun r => decode' r.1 fuel r.2) w exact := by
  refine ⟨h'.1.trans h.1, fun out'' hout'' => ?_⟩
  obtain ⟨out', hout', hpre', hused', hlink'⟩ := h'.2 out'' hout''
  obtain ⟨out, hout, hpre, hused, hlink⟩ := h.2 out' hout'
  refine ⟨out, hout, hpre.trans hpre', hused'.trans hused, fun hready => ?_⟩
  have hl := hlink hready
  have hl' := hlink' hl.opened
  refine ⟨hl'.opened, fun F hF hin => ?_, fun F fuel d hF hin hfuel htable ht => ?_⟩
  · exact hl.holds F (hpre'.trans hF) (hl'.holds F hF hin)
  · have hin' := hl'.holds F hF hin
    obtain ⟨d', hd, ht'⟩ := hl.decodes F fuel d (hpre'.trans hF) hin' hfuel htable ht
    obtain ⟨d'', hd', ht''⟩ := hl'.decodes F fuel d' hF hin hfuel htable (ht' trivial)
    refine ⟨d'', ?_, ht''⟩
    rw [hd]
    exact hd'

/-- Nothing is encoded. -/
theorem Step.refl (e : RangeEncoder) (v : α) : Step Open e e (fun _ d => some (v, d)) v True :=
  ⟨rfl, fun out hout => ⟨out, hout, List.prefix_refl _, rfl, fun hready =>
    ⟨hready, fun _ _ h => h, fun _ _ d _ _ _ _ ht => ⟨d, rfl, fun _ => ht⟩⟩⟩⟩

/-- What is encoded is not read. -/
theorem Step.unread (h : Step pre e e' decode v exact) (w : β) :
    Step pre e e' (fun _ d => some (w, d)) w False := by
  refine ⟨h.1, fun out' hout' => ?_⟩
  obtain ⟨out, hout, hpre, hused, hlink⟩ := h.2 out' hout'
  refine ⟨out, hout, hpre, hused, fun hready => ?_⟩
  exact ⟨(hlink hready).opened, (hlink hready).holds,
    fun _ _ d _ _ _ _ _ => ⟨d, rfl, False.elim⟩⟩

theorem Step.congr {decode₂ : Nat → RangeDecoder → Option (α × RangeDecoder)}
    (h : Step pre e e' decode v exact) (heq : ∀ fuel d, decode₂ fuel d = decode fuel d) :
    Step pre e e' decode₂ v exact := by
  have : decode₂ = decode := funext fun fuel => funext (heq fuel)
  rwa [this]

theorem Step.map (h : Step pre e e' decode v exact) (f : α → β) :
    Step pre e e' (fun fuel d => decode fuel d >>= fun r => some (f r.1, r.2)) (f v) exact := by
  refine ⟨h.1, fun out' hout' => ?_⟩
  obtain ⟨out, hout, hpre, hused, hlink⟩ := h.2 out' hout'
  refine ⟨out, hout, hpre, hused, fun hready => ⟨(hlink hready).opened, (hlink hready).holds,
    fun F fuel d hF hin hfuel htable ht => ?_⟩⟩
  obtain ⟨d', hd, ht'⟩ := (hlink hready).decodes F fuel d hF hin hfuel htable ht
  refine ⟨d', ?_, ht'⟩
  rw [hd]
  rfl

/-- An interval is there already. -/
theorem Step.ready (h : Step Open e e' decode v exact) (hne : e.range ≠ 0) :
    Step Ready e e' decode v exact := by
  refine ⟨h.1, fun out' hout' => ?_⟩
  obtain ⟨out, hout, hpre, hused, hlink⟩ := h.2 out' hout'
  exact ⟨out, hout, hpre, hused, fun hready => hlink (hready.resolve_left hne)⟩

theorem Step.opened (h : Step Ready e e' decode v exact) : Step Open e e' decode v exact := by
  refine ⟨h.1, fun out' hout' => ?_⟩
  obtain ⟨out, hout, hpre, hused, hlink⟩ := h.2 out' hout'
  exact ⟨out, hout, hpre, hused, fun hopen => hlink (.inr hopen)⟩

theorem Step.weaken {exact' : Prop} (h : Step pre e e' decode v exact) (hexact : exact' → exact) :
    Step pre e e' decode v exact' := by
  refine ⟨h.1, fun out' hout' => ?_⟩
  obtain ⟨out, hout, hpre, hused, hlink⟩ := h.2 out' hout'
  refine ⟨out, hout, hpre, hused, fun hready => ⟨(hlink hready).opened, (hlink hready).holds,
    fun F fuel d hF hin hfuel htable ht => ?_⟩⟩
  obtain ⟨d', hd, ht'⟩ := (hlink hready).decodes F fuel d hF hin hfuel htable ht
  exact ⟨d', hd, fun h => ht' (hexact h)⟩

/-! ## The loops of Normalize -/

theorem decoder_normalize_done {fuel : Nat} {d : RangeDecoder} (h : keepsOn d.low d.range = none) :
    d.normalize (fuel + 1) = some d := by
  rw [RangeDecoder.normalize, h]

/-- The top byte of `low`, written and shifted out. -/
theorem put_byte {out : List u8} {F : List u8} (h : out ++ [(e.low >>> 56).setWidth 8] <+: F) :
    byteAt F out.length = e.low.toNat / 2 ^ 56 := by
  have := e.low.isLt
  obtain ⟨rest, rfl⟩ := h
  rw [byteAt, List.getD_append _ _ _ _ (by simp), List.getD_append_right _ _ _ _ le_rfl, Nat.sub_self,
    List.getD_cons_zero, BitVec.toNat_setWidth, BitVec.toNat_ushiftRight, Nat.shiftRight_eq_div_pow]
  omega

theorem window_top (F : List u8) (k : Nat) :
    window F k = byteAt F k * 2 ^ 56 + window F (k + 1) / 2 ^ 8 := by
  have hsucc := window_succ F k
  have := byteAt_lt F (k + 8)
  omega

theorem window_shift (F : List u8) (k : Nat) :
    window F k % 2 ^ 56 * 2 ^ 8 + byteAt F (k + 8) = window F (k + 1) := by
  have hsucc := window_succ F k
  have hbyte : byteAt F (k + 8) = window F (k + 1) % 2 ^ 8 := by
    have := byteAt_lt F (k + 8)
    omega
  have hlow : window F k % 2 ^ 56 = window F (k + 1) / 2 ^ 8 := by
    have := window_lt F (k + 1)
    rw [window_top, Nat.mul_add_mod_self_right, Nat.mod_eq_of_lt (by omega)]
  rw [hlow, hbyte]
  exact Nat.div_add_mod' _ _

/-- The decoder shifts with the encoder. -/
theorem Tracks.shift {F : List u8} {k : Nat} {d : RangeDecoder} {r : u64} (ht : Tracks F k e d)
    (hne : e.range ≠ 0) (hk : keepsOn e.low e.range = some r) (o : Option (List u8))
    (remaining fuel : Nat) :
    ∃ d₁, d.normalize (fuel + 1) = d₁.normalize fuel ∧
      Tracks F (k + 1) ⟨o, e.limit, remaining, e.low <<< 8, r <<< 8⟩ d₁ := by
  have hlow := ht.low hne
  have hcode : (d.code <<< 8).toNat + byteAt F (k + 8) = window F (k + 1) := by
    rw [shl_toNat, ht.code]
    exact window_shift F k
  cases hin : d.input with
  | nil =>
    have hend : F.length ≤ k + 8 := by
      have := ht.input
      rw [hin] at this
      exact List.drop_eq_nil_iff.mp this.symm
    refine ⟨⟨[], d.code <<< 8, d.low <<< 8, r <<< 8⟩, ?_, ?_, ?_, rfl, fun _ => by rw [hlow]⟩
    · rw [RangeDecoder.normalize, hlow, ht.range, hk]
      simp only [hin]
    · exact (List.drop_eq_nil_iff.mpr (by omega)).symm
    · rwa [byteAt_of_le hend, Nat.add_zero] at hcode
  | cons byte input =>
    have hdrop : F.drop (k + 8) = byte :: input := by rw [← ht.input, hin]
    have hbyte : byteAt F (k + 8) = byte.toNat := by
      rw [byteAt, List.getD_eq_getElem?_getD, ← Nat.add_zero (k + 8), ← List.getElem?_drop, hdrop]
      rfl
    refine ⟨⟨input, d.code <<< 8 ||| byte.setWidth 64, d.low <<< 8, r <<< 8⟩, ?_, ?_, ?_, rfl,
      fun _ => by rw [hlow]⟩
    · rw [RangeDecoder.normalize, hlow, ht.range, hk]
      simp only [hin]
    · rw [show k + 1 + 8 = (k + 8) + 1 by omega, ← List.drop_drop, hdrop]
      rfl
    · have hb := byte.isLt
      show (d.code <<< 8 ||| byte.setWidth 64).toNat = _
      have hor : (d.code <<< 8 ||| byte.setWidth 64).toNat = (d.code <<< 8).toNat + byte.toNat := by
        rw [BitVec.toNat_or, BitVec.toNat_setWidth, Nat.mod_eq_of_lt (by omega), shl_toNat,
          Nat.mul_comm, ← Nat.two_pow_add_eq_or_of_lt hb]
      rw [hor, ← hbyte]
      exact hcode

/-- A round of the encoder. -/
theorem Shifted.of_holds {F : List u8} {k : Nat} {r : u64} (hs : Shifted e.low e.range r)
    (hbyte : byteAt F k = e.low.toNat / 2 ^ 56) {o : Option (List u8)} {remaining : Nat}
    (h : Holds F (k + 1) ⟨o, e.limit, remaining, e.low <<< 8, r <<< 8⟩) :
    e.low.toNat ≤ window F k ∧ window F k < e.low.toNat + e.range.toNat := by
  obtain ⟨hlow, hhigh⟩ := h.resolve_left hs.pos
  rw [window_top, hbyte]
  exact hs.holds _ hlow hhigh (window_lt F (k + 1))

/-- What the loops of `Normalize` do. -/
structure Normalized (e : RangeEncoder) (out : List u8) (e' : RangeEncoder) (out' : List u8) :
    Prop where
  ne : e'.range ≠ 0
  long : 2 ^ 48 ≤ e'.range.toNat
  le : e'.low.toNat + e'.range.toNat ≤ 2 ^ 64
  holds : ∀ F, out' <+: F → Holds F out'.length e' → Holds F out.length e
  decodes : ∀ F fuel d, out' <+: F → out'.length - out.length < fuel → Tracks F out.length e d →
    ∃ d', d.normalize fuel = some d' ∧ Tracks F out'.length e' d'

theorem normalizeLoop_spec (n : Nat) : ∀ e : RangeEncoder, e.remaining = n →
    (RangeEncoder.normalizeLoop n e).limit = e.limit ∧
    ∀ out', (RangeEncoder.normalizeLoop n e).output = some out' →
      ∃ out, e.output = some out ∧ out <+: out' ∧
        (RangeEncoder.normalizeLoop n e).remaining + out'.length = e.remaining + out.length ∧
        (e.range ≠ 0 → e.low.toNat + e.range.toNat ≤ 2 ^ 64 →
          Normalized e out (RangeEncoder.normalizeLoop n e) out') := by
  -- a round that is the last one
  have hdone : ∀ e : RangeEncoder, keepsOn e.low e.range = none → ∀ out', e.output = some out' →
      ∃ out, e.output = some out ∧ out <+: out' ∧
        e.remaining + out'.length = e.remaining + out.length ∧
        (e.range ≠ 0 → e.low.toNat + e.range.toNat ≤ 2 ^ 64 → Normalized e out e out') := by
    intro e hk out hout
    refine ⟨out, hout, List.prefix_refl _, rfl, fun hne hle => ⟨hne, keepsOn_none hk, hle,
      fun _ _ h => h, fun F fuel d _ hfuel ht => ?_⟩⟩
    obtain ⟨fuel, rfl⟩ := Nat.exists_eq_succ_of_ne_zero (Nat.zero_lt_of_lt hfuel).ne'
    refine ⟨d, decoder_normalize_done ?_, ht⟩
    rwa [ht.low hne, ht.range]
  induction n with
  | zero =>
    intro e hn
    unfold RangeEncoder.normalizeLoop
    cases hk : keepsOn e.low e.range with
    | none => exact ⟨rfl, hdone e hk⟩
    | some r => exact ⟨rfl, fun out' hout' => by cases hout'⟩
  | succ n ih =>
    intro e hn
    unfold RangeEncoder.normalizeLoop
    cases hk : keepsOn e.low e.range with
    | none => exact ⟨rfl, hdone e hk⟩
    | some r =>
      obtain ⟨hlimit, hrest⟩ := ih { e.put with range := r <<< 8, low := e.low <<< 8 }
        (by rw [RangeEncoder.put, hn]; rfl)
      refine ⟨hlimit, fun out' hout' => ?_⟩
      obtain ⟨out₁, hout₁, hpre, hused, hnorm⟩ := hrest out' hout'
      obtain ⟨out, hout, rfl⟩ := Option.map_eq_some_iff.mp hout₁
      have hlen : (out ++ [(e.low >>> 56).setWidth 8]).length = out.length + 1 := by simp
      refine ⟨out, hout, (List.prefix_append _ _).trans hpre, ?_, fun hne hle => ?_⟩
      · rw [hused, hlen]
        show e.remaining - 1 + (out.length + 1) = e.remaining + out.length
        omega
      · have hs := keepsOn_spec hne hle hk
        have hn' := hnorm hs.pos hs.le
        have hholds := hn'.holds
        have hdecodes := hn'.decodes
        rw [hlen] at hholds hdecodes
        refine ⟨hn'.ne, hn'.long, hn'.le, fun F hF hin => ?_, fun F fuel d hF hfuel ht => ?_⟩
        · exact .inr (hs.of_holds (put_byte (hpre.trans hF)) (hholds F hF hin))
        · have hlonger := hpre.length_le
          rw [hlen] at hlonger
          obtain ⟨fuel, rfl⟩ := Nat.exists_eq_succ_of_ne_zero (Nat.zero_lt_of_lt hfuel).ne'
          obtain ⟨d₁, hd₁, ht₁⟩ := ht.shift hne hk _ _ fuel
          rw [hd₁]
          exact hdecodes F fuel d₁ hF (by omega) ht₁

theorem normalize_spec (e : RangeEncoder) : e.normalize.limit = e.limit ∧
    ∀ out', e.normalize.output = some out' → ∃ out, e.output = some out ∧ out <+: out' ∧
      e.normalize.remaining + out'.length = e.remaining + out.length ∧
      (Open e → Normalized e out e.normalize out') := by
  obtain ⟨hlimit, hrest⟩ := normalizeLoop_spec e.remaining e rfl
  refine ⟨hlimit, fun out' hout' => ?_⟩
  obtain ⟨out, hout, hpre, hused, hnorm⟩ := hrest out' hout'
  exact ⟨out, hout, hpre, hused, fun hopen => hnorm hopen.1 hopen.2⟩

/-- A narrower interval. -/
structure Narrow (low range low' range' : u64) : Prop where
  pos : range' ≠ 0
  ge : low.toNat ≤ low'.toNat
  le : low'.toNat + range'.toNat ≤ low.toNat + range.toNat

/-- A call that normalizes and narrows the interval, and one that normalizes and reads which. -/
theorem step_narrow {low range : u64} {g : Nat → RangeDecoder → Option (α × RangeDecoder)}
    (hdecode : ∀ fuel d, d.range ≠ 0 → decode fuel d = d.normalize fuel >>= g fuel)
    (h : 2 ^ 48 ≤ e.normalize.range.toNat →
      e.normalize.low.toNat + e.normalize.range.toNat ≤ 2 ^ 64 →
      Narrow e.normalize.low e.normalize.range low range ∧
        ∀ fuel d, 256 ≤ fuel → d.low = e.normalize.low → d.range = e.normalize.range →
          low.toNat ≤ d.code.toNat → d.code.toNat < low.toNat + range.toNat →
          g fuel d = some (v, { d with low := low, range := range })) :
    Step Open e { e.normalize with low := low, range := range } decode v True := by
  obtain ⟨hlimit, hnormal⟩ := normalize_spec e
  refine ⟨hlimit, fun out' hout' => ?_⟩
  obtain ⟨out, hout, hpre, hused, hnorm⟩ := hnormal out' hout'
  refine ⟨out, hout, hpre, hused, fun hopen => ?_⟩
  have hn := hnorm hopen
  obtain ⟨hnarrow, hreads⟩ := h hn.long hn.le
  have hge := hnarrow.ge
  have hle := hnarrow.le
  have hholds : ∀ F, Holds F out'.length { e.normalize with low := low, range := range } →
      Holds F out'.length e.normalize := by
    intro F hin
    obtain ⟨hlow, hhigh⟩ := hin.resolve_left hnarrow.pos
    exact .inr ⟨hge.trans hlow, hhigh.trans_le hle⟩
  refine ⟨⟨hnarrow.pos, hle.trans hn.le⟩, fun F hF hin => hn.holds F hF (hholds F hin),
    fun F fuel d hF hin hfuel htable ht => ?_⟩
  have hlen := hF.length_le
  obtain ⟨d', hd', ht'⟩ := hn.decodes F fuel d hF (by omega) ht
  obtain ⟨hlow, hhigh⟩ := hin.resolve_left hnarrow.pos
  refine ⟨{ d' with low := low, range := range }, ?_,
    fun _ => ⟨ht'.input, ht'.code, rfl, fun _ => rfl⟩⟩
  rw [hdecode fuel d (by rw [ht.range]; exact hopen.1), hd']
  exact hreads fuel d' htable (ht'.low hn.ne) ht'.range (by rwa [ht'.code]) (by rwa [ht'.code])

/-! ## Calls that narrow the interval -/

theorem quotient {code low r : u64} {s m : Nat} (hlow : low.toNat + s * r.toNat ≤ code.toNat)
    (hhigh : code.toNat < low.toNat + s * r.toNat + m * r.toNat) :
    s ≤ ((code - low) / r).toNat ∧ ((code - low) / r).toNat < s + m := by
  have hle : low.toNat ≤ code.toNat := by omega
  have hr : 0 < r.toNat := by
    refine Nat.pos_of_ne_zero fun h => ?_
    rw [h, Nat.mul_zero, Nat.mul_zero] at hhigh
    omega
  rw [BitVec.toNat_udiv, BitVec.toNat_sub_of_le (BitVec.le_def.mpr hle), Nat.le_div_iff_mul_le hr,
    Nat.div_lt_iff_lt_mul hr, Nat.add_mul]
  omega

/-- A call that takes the part from `s` on of `m` out of `total` equal ones. -/
theorem step_scaled {scale : u64 → u64} {total s m : Nat} {low range : u64}
    {g : Nat → RangeDecoder → Option (α × RangeDecoder)}
    (hdecode : ∀ fuel d, d.range ≠ 0 → decode fuel d = d.normalize fuel >>= g fuel)
    (hscale : ∀ range : u64, 2 ^ 48 ≤ range.toNat →
      0 < (scale range).toNat ∧ total * (scale range).toNat ≤ range.toNat)
    (hm : 0 < m) (hsm : s + m ≤ total) (htotal : total ≤ 2 ^ 32)
    (hlow : low = e.normalize.low + BitVec.ofNat 64 s * scale e.normalize.range)
    (hrange : range = scale e.normalize.range * BitVec.ofNat 64 m)
    (hg : ∀ fuel d, 256 ≤ fuel → s ≤ ((d.code - d.low) / scale d.range).toNat →
      ((d.code - d.low) / scale d.range).toNat < s + m → g fuel d = some (v,
        { d with
          low := d.low + BitVec.ofNat 64 s * scale d.range
          range := scale d.range * BitVec.ofNat 64 m })) :
    Step Open e { e.normalize with low := low, range := range } decode v True := by
  refine step_narrow hdecode fun hlong hle => ?_
  obtain ⟨hpos, hfits⟩ := hscale e.normalize.range hlong
  generalize hr : scale e.normalize.range = r at hlow hrange hpos hfits
  have hparts : s * r.toNat + m * r.toNat ≤ total * r.toNat := by
    rw [← Nat.add_mul]
    exact Nat.mul_le_mul_right _ hsm
  have hmpos : 0 < m * r.toNat := Nat.mul_pos hm hpos
  have hlowNat : low.toNat = e.normalize.low.toNat + s * r.toNat := by
    rw [hlow, BitVec.toNat_add, BitVec.toNat_mul, BitVec.toNat_ofNat,
      Nat.mod_eq_of_lt (by omega : s < 2 ^ 64), Nat.mod_eq_of_lt (by omega : s * r.toNat < 2 ^ 64)]
    exact Nat.mod_eq_of_lt (by omega)
  have hrangeNat : range.toNat = m * r.toNat := by
    have := e.normalize.range.isLt
    rw [hrange, BitVec.toNat_mul, BitVec.toNat_ofNat, Nat.mod_eq_of_lt (by omega : m < 2 ^ 64),
      Nat.mul_comm]
    exact Nat.mod_eq_of_lt (by omega)
  refine ⟨⟨fun h => ?_, by omega, by omega⟩, fun fuel d htable hdlow hdrange hin hin' => ?_⟩
  · have h0 : range.toNat = 0 := congrArg BitVec.toNat h
    omega
  · rw [hlowNat, hrangeNat, ← hdlow] at hin'
    rw [hlowNat, ← hdlow] at hin
    have hq := quotient hin hin'
    rw [← hdrange] at hr
    rw [← hr] at hq
    rw [hg fuel d htable hq.1 hq.2, hlow, hrange, ← hdlow, hr]

theorem shift_scale {n : Nat} (hn : n ≤ 32) (range : u64) (h : 2 ^ 48 ≤ range.toNat) :
    0 < (range >>> n).toNat ∧ 2 ^ n * (range >>> n).toNat ≤ range.toNat := by
  rw [BitVec.toNat_ushiftRight, Nat.shiftRight_eq_div_pow]
  refine ⟨Nat.div_pos ?_ (Nat.two_pow_pos n), Nat.mul_div_le _ _⟩
  exact (Nat.pow_le_pow_right (by omega) (by omega : n ≤ 48)).trans h

theorem div_scale {total : Nat} (hpos : 0 < total) (htotal : total ≤ 2 ^ 32) (range : u64)
    (h : 2 ^ 48 ≤ range.toNat) :
    0 < (range / BitVec.ofNat 64 total).toNat ∧
      total * (range / BitVec.ofNat 64 total).toNat ≤ range.toNat := by
  rw [BitVec.toNat_udiv, BitVec.toNat_ofNat, Nat.mod_eq_of_lt (by omega : total < 2 ^ 64)]
  exact ⟨Nat.div_pos (by omega) hpos, Nat.mul_div_le _ _⟩

/-- The part of the frequency that is for a one. -/
theorem neg_setWidth {frequency : u32} (h : 0 < frequency.toNat) :
    (-frequency).setWidth 64 = BitVec.ofNat 64 (2 ^ 32 - frequency.toNat) := by
  have := frequency.isLt
  refine BitVec.eq_of_toNat_eq ?_
  rw [BitVec.toNat_setWidth, BitVec.toNat_neg, BitVec.toNat_ofNat,
    Nat.mod_eq_of_lt (by omega : 2 ^ 32 - frequency.toNat < 2 ^ 32)]

/-- The first field of all. -/
theorem step_first {low range : u64} (hzero : e.range = 0) (hle : low.toNat + range.toNat ≤ 2 ^ 64)
    (hdecode : ∀ fuel d, d.range = 0 → range ≠ 0 → low.toNat ≤ d.code.toNat →
      d.code.toNat < low.toNat + range.toNat →
        decode fuel d = some (v, { d with low := low, range := range })) (hpos : range ≠ 0) :
    Step Ready e { e with low := low, range := range } decode v True := by
  refine ⟨rfl, fun out hout => ⟨out, hout, List.prefix_refl _, rfl, fun _ => ⟨⟨hpos, hle⟩,
    fun _ _ _ => .inl hzero, fun F fuel d _ hin _ _ ht => ?_⟩⟩⟩
  obtain ⟨hlow, hhigh⟩ := hin.resolve_left hpos
  refine ⟨{ d with low := low, range := range }, ?_,
    fun _ => ⟨ht.input, ht.code, rfl, fun _ => rfl⟩⟩
  refine hdecode fuel d (ht.range.trans hzero) hpos ?_ ?_
  · rwa [ht.code]
  · rwa [ht.code]

end Spec

end Libcat.Codec.RangeCoder
