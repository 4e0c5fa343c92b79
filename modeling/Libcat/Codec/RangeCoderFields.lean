import Libcat.Codec.RangeCoder

/-!
# The round trip of the range coder

Each call of RangeEncoder is a step with the call of RangeDecoder that reads what it has written, a
sequence of fields too. `Finish` leaves bytes that are in the last interval; the zeroes that it leaves
out are those that the decoder reads behind the end.

Where a text fills its buffer, the decoder does not read its end, so that what follows is read from
the wrong interval: `Field.Room`.
-/

namespace Libcat.Codec.RangeCoder

open SymbolTable

section Calls

variable {stats : TableFormat}

/-! ## Bits and numbers -/

theorem first_one {frequency : u32} (h : 0 < frequency.toNat) :
    ((-frequency).signExtend 64 <<< 32).toNat = (2 ^ 32 - frequency.toNat) * 2 ^ 32 := by
  have := frequency.isLt
  -- the sign is shifted out
  have hsign : (-frequency).signExtend 64 <<< 32 = (-frequency).setWidth 64 <<< 32 := by
    refine BitVec.eq_of_getLsbD_eq fun i hi => ?_
    rw [BitVec.getLsbD_shiftLeft, BitVec.getLsbD_shiftLeft]
    by_cases hlow : i < 32
    · rw [decide_eq_true hlow, Bool.not_true, Bool.and_false, Bool.false_and, Bool.false_and]
    · rw [BitVec.getLsbD_signExtend, BitVec.getLsbD_setWidth, if_pos (by omega)]
  rw [hsign, neg_setWidth h, BitVec.toNat_shiftLeft, BitVec.toNat_ofNat, Nat.shiftLeft_eq]
  omega

theorem first_zero (frequency : u32) :
    (frequency.setWidth 64 <<< 32).toNat = frequency.toNat * 2 ^ 32 := by
  have := frequency.isLt
  rw [BitVec.toNat_shiftLeft, BitVec.toNat_setWidth, Nat.shiftLeft_eq]
  omega

theorem top_half (code : u64) : ((code >>> 32).setWidth 32).toNat = code.toNat / 2 ^ 32 := by
  have := code.isLt
  rw [BitVec.toNat_setWidth, BitVec.toNat_ushiftRight, Nat.shiftRight_eq_div_pow]
  omega

theorem biasedBit_step (e : RangeEncoder) (b frequency : u32) (hfreq : 0 < frequency.toNat) :
    Step Ready e (e.biasedBit b frequency) (fun fuel d => d.biasedBit fuel frequency)
      (if b ≠ 0 then 1 else 0) True := by
  have hflt := frequency.isLt
  have hone := first_one hfreq
  have hzero := first_zero frequency
  by_cases hfirst : e.range = 0
  · by_cases hb : b ≠ 0
    · rw [RangeEncoder.biasedBit, if_pos hfirst, if_pos hb, if_pos hb]
      refine step_first hfirst (by omega) (fun fuel d hd _ hlow _ => ?_) fun h => ?_
      · have hnot : ¬(d.code >>> 32).setWidth 32 < frequency := by
          rw [BitVec.lt_def, top_half]
          omega
        rw [RangeDecoder.biasedBit, if_pos hd, if_neg hnot]
      · have h0 : ((-frequency).signExtend 64 <<< 32).toNat = 0 := congrArg BitVec.toNat h
        omega
    · rw [RangeEncoder.biasedBit, if_pos hfirst, if_neg hb, if_neg hb]
      refine step_first hfirst ?_ (fun fuel d hd _ _ hhigh => ?_) fun h => ?_
      · rw [hzero, BitVec.ofNat_eq_ofNat, BitVec.toNat_zero]
        omega
      · have hlt : (d.code >>> 32).setWidth 32 < frequency := by
          rw [hzero, BitVec.ofNat_eq_ofNat, BitVec.toNat_zero] at hhigh
          rw [BitVec.lt_def, top_half]
          omega
        rw [RangeDecoder.biasedBit, if_pos hd, if_pos hlt]
      · have h0 : (frequency.setWidth 64 <<< 32).toNat = 0 := congrArg BitVec.toNat h
        omega
  · have hdecode : ∀ fuel (d : RangeDecoder), d.range ≠ 0 → d.biasedBit fuel frequency =
        d.normalize fuel >>= fun d =>
          let range := d.range >>> 32
          let x := ((d.code - d.low) / range).setWidth 32
          if x < frequency then some (0, { d with range := range * frequency.setWidth 64 })
          else
            some (1, { d with
              low := d.low + frequency.setWidth 64 * range
              range := range * (-frequency).setWidth 64 }) := by
      intro fuel d hd
      rw [RangeDecoder.biasedBit, if_neg hd]
    by_cases hb : b ≠ 0
    · rw [RangeEncoder.biasedBit, if_neg hfirst, if_pos hb, if_pos hb]
      refine Step.ready (step_scaled hdecode (fun range => shift_scale (n := 32) le_rfl range)
        (by omega : 0 < 2 ^ 32 - frequency.toNat) (by omega : frequency.toNat + _ ≤ _) le_rfl
        ?_ ?_ ?_) hfirst
      · rw [BitVec.ofNat_toNat]
      · rw [neg_setWidth hfreq]
      · intro fuel d _ hlow hhigh
        have hnot : ¬((d.code - d.low) / d.range >>> 32).setWidth 32 < frequency := by
          rw [BitVec.lt_def, BitVec.toNat_setWidth]
          omega
        dsimp only
        rw [if_neg hnot, BitVec.ofNat_toNat, neg_setWidth hfreq]
    · rw [RangeEncoder.biasedBit, if_neg hfirst, if_neg hb, if_neg hb]
      refine Step.ready (step_scaled hdecode (fun range => shift_scale (n := 32) le_rfl range) hfreq
        (by omega : 0 + _ ≤ _) le_rfl ?_ ?_ ?_) hfirst
      · rw [BitVec.zero_mul, BitVec.add_zero]
      · rw [BitVec.ofNat_toNat]
      · intro fuel d _ _ hhigh
        have hlt : ((d.code - d.low) / d.range >>> 32).setWidth 32 < frequency := by
          rw [BitVec.lt_def, BitVec.toNat_setWidth]
          omega
        dsimp only
        rw [if_pos hlt, BitVec.zero_mul, BitVec.add_zero, BitVec.ofNat_toNat]

theorem equalRange_step (e : RangeEncoder) {symbol total : u32} (h : symbol.toNat < total.toNat) :
    Step Ready e (e.equalRange symbol total) (fun fuel d => d.equalRange fuel total) symbol True := by
  have htotal := total.isLt
  have hsymbol : BitVec.ofNat 64 symbol.toNat = symbol.setWidth 64 := BitVec.ofNat_toNat _ _
  have htotal64 : BitVec.ofNat 64 total.toNat = total.setWidth 64 := BitVec.ofNat_toNat _ _
  by_cases hfirst : e.range = 0
  · rw [RangeEncoder.equalRange, if_pos hfirst]
    obtain ⟨hpos, hfits⟩ := div_scale (by omega) htotal.le 0xffffffffffffffff (by decide)
    rw [htotal64] at hpos hfits
    generalize hr : 0xffffffffffffffff / total.setWidth 64 = r at hpos hfits
    have hparts : symbol.toNat * r.toNat + 1 * r.toNat ≤ total.toNat * r.toNat := by
      rw [← Nat.add_mul]
      exact Nat.mul_le_mul_right _ h
    have hall : (0xffffffffffffffff : u64).toNat = 2 ^ 64 - 1 := rfl
    have hlow : (symbol.setWidth 64 * r).toNat = symbol.toNat * r.toNat := by
      rw [← hsymbol, BitVec.toNat_mul, BitVec.toNat_ofNat,
        Nat.mod_eq_of_lt (by omega : symbol.toNat < 2 ^ 64)]
      exact Nat.mod_eq_of_lt (by omega)
    refine step_first hfirst (by omega) (fun fuel d hd _ hge hlt => ?_) fun h0 => ?_
    · have hlow0 : (0 : u64).toNat = 0 := rfl
      have hq : symbol.toNat ≤ ((d.code - 0) / r).toNat ∧
          ((d.code - 0) / r).toNat < symbol.toNat + 1 := quotient (by omega) (by omega)
      rw [BitVec.ofNat_eq_ofNat, BitVec.sub_zero] at hq
      have heq : (d.code / r).setWidth 32 = symbol := by
        refine BitVec.eq_of_toNat_eq ?_
        rw [BitVec.toNat_setWidth]
        omega
      rw [RangeDecoder.equalRange, if_pos hd]
      dsimp only
      rw [hr, heq]
    · rw [h0] at hpos
      exact absurd hpos (Nat.lt_irrefl 0)
  · have hdecode : ∀ fuel (d : RangeDecoder), d.range ≠ 0 → d.equalRange fuel total =
        d.normalize fuel >>= fun d =>
          let range := d.range / total.setWidth 64
          let symbol := ((d.code - d.low) / range).setWidth 32
          some (symbol, { d with range := range, low := d.low + symbol.setWidth 64 * range }) := by
      intro fuel d hd
      rw [RangeDecoder.equalRange, if_neg hd]
    rw [RangeEncoder.equalRange, if_neg hfirst]
    refine Step.ready (step_scaled hdecode (div_scale (by omega) htotal.le) Nat.one_pos
      (by omega : symbol.toNat + 1 ≤ total.toNat) htotal.le ?_ ?_ ?_) hfirst
    · rw [hsymbol, htotal64]
    · rw [htotal64, BitVec.mul_one]
    · intro fuel d _ hlow hhigh
      rw [htotal64] at hlow hhigh
      have heq : ((d.code - d.low) / (d.range / total.setWidth 64)).setWidth 32 = symbol := by
        refine BitVec.eq_of_toNat_eq ?_
        rw [BitVec.toNat_setWidth]
        omega
      dsimp only
      rw [heq, hsymbol, htotal64, BitVec.mul_one]

/-! ## Texts -/

/-- A table with at least two symbols whose rows increase strictly, and their look-up tables. -/
structure TableRight (stats : TableFormat) : Prop where
  two_le : 2 ≤ stats.total
  le : stats.total ≤ 256
  rows : ∀ last < stats.total, ∃ row stray, stats.frequencies[last]? = some row ∧
    StrictRow stats.total row.base ∧ row.lut = writeLut row.base stray stats.total
  char2index_zero : stats.char2index 0 = 0
  index2char_zero : stats.index2char 0 = 0

/-- A character of the table, which is not the end of a string. -/
structure InTable (stats : TableFormat) (ch : u8) : Prop where
  ne : ch ≠ 0
  pos : stats.char2index ch.toNat ≠ 0
  lt : stats.char2index ch.toNat < stats.total
  back : stats.index2char (stats.char2index ch.toNat) = ch.toNat

theorem InTable.char {ch : u8} (h : InTable stats ch) :
    (BitVec.ofNat 8 (stats.index2char (stats.char2index ch.toNat)) : u8) = ch := by
  rw [h.back, BitVec.ofNat_toNat, BitVec.setWidth_eq]

theorem tableSymbol_step (h : TableRight stats) {last : Nat} (hlast : last < stats.total) {ch : u8}
    (hch : stats.char2index ch.toNat < stats.total) (e : RangeEncoder) :
    ∃ symbol_low e',
      e.tableSymbol stats last ch = some (stats.char2index ch.toNat, symbol_low, e') ∧
      (symbol_low ≠ 0 ↔ stats.char2index ch.toNat ≠ 0) ∧
      Step Open e e' (fun fuel d => d.tableSymbol fuel stats last)
        (stats.char2index ch.toNat) True := by
  obtain ⟨row, stray, hrow, hstrict, hlut⟩ := h.rows last hlast
  have hlen := hstrict.length
  have htwo := h.two_le
  have henc := encoder_spec htwo hrow hstrict hch
  generalize stats.char2index ch.toNat = symbol at hch henc
  have hlast_edge : edge row.base (row.base.length + 1) = 2 ^ 16 := edge_last
  have hgap : edge row.base symbol < edge row.base (symbol + 1) :=
    hstrict.edge_lt (Nat.lt_succ_self _) (by omega)
  have hend : edge row.base (symbol + 1) ≤ 2 ^ 16 := by
    rw [← hlast_edge]
    exact hstrict.edge_le (by omega) le_rfl
  refine ⟨edge row.base symbol, { e.normalize with
    low := e.normalize.low + BitVec.ofNat 64 (edge row.base symbol) * (e.normalize.range >>> 16)
    range := e.normalize.range >>> 16 *
      BitVec.ofNat 64 (edge row.base (symbol + 1) - edge row.base symbol) }, ?_, ?_, ?_⟩
  · rw [RangeEncoder.tableSymbol, henc]
    rfl
  · constructor
    · intro hne hzero
      rw [hzero, edge_zero] at hne
      exact hne rfl
    · intro hne
      have hpos : edge row.base 0 < edge row.base symbol :=
        hstrict.edge_lt (Nat.pos_of_ne_zero hne) (by omega)
      omega
  · refine step_scaled (fun fuel d _ => rfl) (fun range => shift_scale (n := 16) (by omega) range)
      (by omega : 0 < edge row.base (symbol + 1) - edge row.base symbol)
      (by omega : edge row.base symbol + _ ≤ _) (by norm_num) rfl rfl ?_
    intro fuel d htable hlow hhigh
    have hx : (((d.code - d.low) / d.range >>> 16).setWidth 16).toNat =
        ((d.code - d.low) / d.range >>> 16).toNat := by
      rw [BitVec.toNat_setWidth]
      exact Nat.mod_eq_of_lt (by omega)
    obtain ⟨found, hfound, hge, hlt, hrun⟩ := decoder_spec htwo h.le hrow hstrict hlut
      (by omega : ((d.code - d.low) / d.range >>> 16).toNat < 2 ^ 16) htable
    obtain rfl : found = symbol :=
      hstrict.symbol_unique (by omega) (by omega) ⟨hge, hlt⟩ ⟨hlow, by omega⟩
    dsimp only
    rw [hx, hrun]
    rfl

theorem uniformSymbol_step (h : TableRight stats) {ch : u8}
    (hch : stats.char2index ch.toNat < stats.total) (e : RangeEncoder) :
    Step Open e (e.uniformSymbol stats ch) (fun fuel d => d.uniformSymbol fuel stats)
      (BitVec.ofNat 8 (stats.char2index ch.toNat)) True := by
  have htwo := h.two_le
  have hle := h.le
  have hscale := @div_scale stats.total (by omega) (by omega)
  refine step_scaled (fun fuel d _ => rfl) hscale Nat.one_pos
    (by omega : stats.char2index ch.toNat + 1 ≤ stats.total) (by omega) rfl ?_ ?_
  · rw [BitVec.mul_one]
  · intro fuel d _ hlow hhigh
    have heq : ((d.code - d.low) / (d.range / BitVec.ofNat 64 stats.total)).setWidth 8 =
        BitVec.ofNat 8 (stats.char2index ch.toNat) := by
      refine BitVec.eq_of_toNat_eq ?_
      rw [BitVec.toNat_setWidth, BitVec.toNat_ofNat]
      omega
    have hwide : (BitVec.ofNat 8 (stats.char2index ch.toNat)).setWidth 64 =
        BitVec.ofNat 64 (stats.char2index ch.toNat) := by
      refine BitVec.eq_of_toNat_eq ?_
      rw [BitVec.toNat_setWidth, BitVec.toNat_ofNat, BitVec.toNat_ofNat]
      omega
    dsimp only
    rw [heq, hwide, BitVec.mul_one]

/-- What the decoder does with a symbol of the order-1 model. -/
def textNext (stats : TableFormat) (room symbol fuel : Nat) (d : RangeDecoder) :
    Option (List u8 × RangeDecoder) :=
  if symbol = 0 then some ([], d)
  else d.textLoop fuel stats room symbol >>= fun r =>
    some (BitVec.ofNat 8 (stats.index2char symbol) :: r.1, r.2)

theorem textLoop_succ (fuel room last : Nat) (d : RangeDecoder) :
    d.textLoop fuel stats (room + 1) last =
      d.tableSymbol fuel stats last >>= fun r => textNext stats room r.1 fuel r.2 := rfl

/-- The loop with the order-1 statistics, against a buffer with room for the characters; the end is
read if there is room for one more. -/
theorem textLoop_step (h : TableRight stats) (msg : List u8) : ∀ {last room : Nat} (e : RangeEncoder),
    last < stats.total → (∀ ch ∈ msg, InTable stats ch) → msg.length ≤ room →
      ∃ len e', e.textLoop stats (msg ++ [0]) last = some (len, e') ∧
        Step Open e e' (fun fuel d => d.textLoop fuel stats room last) msg (msg.length < room) := by
  induction msg with
  | nil =>
    intro last room e hlast _ _
    have hzero : stats.char2index (0 : u8).toNat = 0 := h.char2index_zero
    have hlt : stats.char2index (0 : u8).toNat < stats.total := by
      rw [hzero]
      exact Nat.lt_of_lt_of_le Nat.two_pos h.two_le
    obtain ⟨symbol_low, e', henc, hlow, hstep⟩ := tableSymbol_step h hlast hlt e
    rw [hzero] at henc hlow hstep
    have hend : ¬symbol_low ≠ 0 := fun hne => hlow.mp hne rfl
    refine ⟨1, e', ?_, ?_⟩
    · rw [List.nil_append, RangeEncoder.textLoop, henc]
      simp only [Option.bind_eq_bind, Option.bind_some, if_neg hend]
    · cases room with
      | zero => exact (hstep.unread []).weaken (Nat.lt_irrefl _)
      | succ room =>
        have hdone : Step Open e' e' (textNext stats room 0) [] True :=
          (Step.refl e' []).congr fun fuel d => if_pos rfl
        exact ((hstep.bind hdone).congr fun fuel d => textLoop_succ fuel room last d).weaken
          fun _ => trivial
  | cons ch msg ih =>
    intro last room e hlast hmsg hroom
    have hch := hmsg ch List.mem_cons_self
    obtain ⟨room, rfl⟩ := Nat.exists_eq_succ_of_ne_zero
      (Nat.lt_of_lt_of_le (Nat.succ_pos _) hroom).ne'
    obtain ⟨symbol_low, e₁, henc, hlow, hstep⟩ := tableSymbol_step h hlast hch.lt e
    obtain ⟨len, e', hrun, hrest⟩ := ih e₁ hch.lt (fun c hc => hmsg c (List.mem_cons_of_mem _ hc))
      (Nat.le_of_succ_le_succ hroom)
    refine ⟨len + 1, e', ?_, ?_⟩
    · rw [List.cons_append, RangeEncoder.textLoop, henc]
      simp only [Option.bind_eq_bind, Option.bind_some, if_pos (hlow.mpr hch.pos), hrun]
    · have hnext : Step Open e₁ e' (textNext stats room (stats.char2index ch.toNat)) (ch :: msg)
          (msg.length < room) := by
        refine (hrest.map (ch :: ·)).congr fun fuel d => ?_
        rw [textNext, if_neg hch.pos, hch.char]
      refine ((hstep.bind hnext).congr fun fuel d => textLoop_succ fuel room last d).weaken ?_
      exact Nat.lt_of_succ_lt_succ

/-- What the decoder does with a symbol of the uniform model. -/
def uniformNext (stats : TableFormat) (room : Nat) (symbol : u8) (fuel : Nat) (d : RangeDecoder) :
    Option (List u8 × RangeDecoder) :=
  let last : u8 := BitVec.ofNat 8 (stats.index2char symbol.toNat)
  if last = 0 then some ([], d)
  else d.uniformLoop fuel stats room >>= fun r => some (last :: r.1, r.2)

theorem uniformLoop_succ (fuel room : Nat) (d : RangeDecoder) :
    d.uniformLoop fuel stats (room + 1) =
      d.uniformSymbol fuel stats >>= fun r => uniformNext stats room r.1 fuel r.2 := rfl

/-- The loop with the uniform distribution, the same way. -/
theorem uniformLoop_step (h : TableRight stats) (msg : List u8) : ∀ {room : Nat} (e : RangeEncoder),
    (∀ ch ∈ msg, InTable stats ch) → msg.length ≤ room →
      ∃ e', e.uniformLoop stats (msg ++ [0]) = some e' ∧
        Step Open e e' (fun fuel d => d.uniformLoop fuel stats room) msg (msg.length < room) := by
  have hle := h.le
  induction msg with
  | nil =>
    intro room e _ _
    have hzero : stats.char2index (0 : u8).toNat = 0 := h.char2index_zero
    have hlt : stats.char2index (0 : u8).toNat < stats.total := by
      rw [hzero]
      exact Nat.lt_of_lt_of_le Nat.two_pos h.two_le
    have hstep := uniformSymbol_step h hlt e
    rw [hzero] at hstep
    refine ⟨e.uniformSymbol stats 0, rfl, ?_⟩
    cases room with
    | zero => exact (hstep.unread []).weaken (Nat.lt_irrefl _)
    | succ room =>
      have hdone : Step Open (e.uniformSymbol stats 0) (e.uniformSymbol stats 0)
          (uniformNext stats room 0) [] True := by
        refine (Step.refl _ []).congr fun fuel d => ?_
        have hlast : (BitVec.ofNat 8 (stats.index2char (0 : u8).toNat) : u8) = 0 := by
          rw [show (0 : u8).toNat = 0 from rfl, h.index2char_zero]
          rfl
        rw [uniformNext, hlast]
        rfl
      exact ((hstep.bind hdone).congr fun fuel d => uniformLoop_succ fuel room d).weaken
        fun _ => trivial
  | cons ch msg ih =>
    intro room e hmsg hroom
    have hch := hmsg ch List.mem_cons_self
    have hlt := hch.lt
    obtain ⟨room, rfl⟩ := Nat.exists_eq_succ_of_ne_zero
      (Nat.lt_of_lt_of_le (Nat.succ_pos _) hroom).ne'
    have hstep := uniformSymbol_step h hlt e
    obtain ⟨e', hrun, hrest⟩ := ih (e.uniformSymbol stats ch)
      (fun c hc => hmsg c (List.mem_cons_of_mem _ hc)) (Nat.le_of_succ_le_succ hroom)
    refine ⟨e', ?_, ?_⟩
    · rw [List.cons_append, RangeEncoder.uniformLoop, if_pos hch.ne, hrun]
    · have hnext : Step Open (e.uniformSymbol stats ch) e'
          (uniformNext stats room (BitVec.ofNat 8 (stats.char2index ch.toNat))) (ch :: msg)
          (msg.length < room) := by
        refine (hrest.map (ch :: ·)).congr fun fuel d => ?_
        have hindex : (BitVec.ofNat 8 (stats.char2index ch.toNat) : u8).toNat =
            stats.char2index ch.toNat := by
          rw [BitVec.toNat_ofNat]
          exact Nat.mod_eq_of_lt (by omega)
        rw [uniformNext, hindex, hch.char, if_neg hch.ne]
      refine ((hstep.bind hnext).congr fun fuel d => uniformLoop_succ fuel room d).weaken ?_
      exact Nat.lt_of_succ_lt_succ

/-- What the decoder does with the bit for the model. -/
def textModel (stats : TableFormat) (buffer_size : Nat) (uniform : u32) (fuel : Nat)
    (d : RangeDecoder) : Option (List u8 × RangeDecoder) :=
  if uniform ≠ 0 then d.uniformLoop fuel stats (buffer_size - 1)
  else d.textLoop fuel stats (buffer_size - 1) 0

theorem text_eq (fuel buffer_size : Nat) (d : RangeDecoder) :
    d.text fuel buffer_size stats =
      d.biasedBit fuel 0xff000000 >>= fun r => textModel stats buffer_size r.1 fuel r.2 := rfl

/-- `Text`, in the model that the encoder has chosen. -/
theorem text_step (h : TableRight stats) {msg : List u8} (hmsg : ∀ ch ∈ msg, InTable stats ch)
    {buffer_size : Nat} (hsize : msg.length < buffer_size) (e : RangeEncoder) :
    ∃ e', e.text (msg ++ [0]) stats = some e' ∧
      Step Ready e e' (fun fuel d => d.text fuel buffer_size stats) msg
        (msg.length + 1 < buffer_size) := by
  have htwo := h.two_le
  have hexact : msg.length + 1 < buffer_size → msg.length < buffer_size - 1 := fun h => by omega
  have hfreq : 0 < (0xff000000 : u32).toNat := by decide
  obtain ⟨len, tried, hrun, hloop⟩ := @textLoop_step stats h msg 0 (buffer_size - 1)
    (e.biasedBit 0 0xff000000) (by omega) hmsg (by omega)
  obtain ⟨plain, hplain, huniform⟩ := @uniformLoop_step stats h msg (buffer_size - 1)
    (e.biasedBit 1 0xff000000) hmsg (by omega)
  by_cases hgrown : e.remaining - tried.remaining ≥ (len * stats.log2total) >>> 15
  · refine ⟨plain, ?_, ?_⟩
    · rw [RangeEncoder.text, hrun]
      simp only [Option.bind_eq_bind, Option.bind_some, if_pos hgrown, hplain]
    · have hmodel : Step Open (e.biasedBit 1 0xff000000) plain (textModel stats buffer_size 1) msg
          (msg.length < buffer_size - 1) := huniform.congr fun fuel d => if_pos (by decide)
      exact (((biasedBit_step e 1 0xff000000 hfreq).bind hmodel).congr fun fuel d =>
        text_eq fuel buffer_size d).weaken hexact
  · refine ⟨tried, ?_, ?_⟩
    · rw [RangeEncoder.text, hrun]
      simp only [Option.bind_eq_bind, Option.bind_some, if_neg hgrown]
    · have hmodel : Step Open (e.biasedBit 0 0xff000000) tried (textModel stats buffer_size 0) msg
          (msg.length < buffer_size - 1) := hloop.congr fun fuel d => if_neg (by decide)
      exact (((biasedBit_step e 0 0xff000000 hfreq).bind hmodel).congr fun fuel d =>
        text_eq fuel buffer_size d).weaken hexact

/-! ## Fields -/

/-- The fields of the format: a bit that can have both values, a number in range, a string over a table
and a buffer for it. -/
def Field.Right : Field → Prop
  | .biasedBit _ frequency => 0 < frequency.toNat
  | .range symbol total => symbol.toNat < total.toNat
  | .text msg buffer_size stats =>
    TableRight stats ∧ (∀ ch ∈ msg, InTable stats ch) ∧ msg.length < buffer_size

/-- There is room for the string, its end and one character more. -/
def Field.Room : Field → Prop
  | .text msg buffer_size _ => msg.length + 1 < buffer_size
  | _ => True

theorem field_step {f : Field} (h : f.Right) (e : RangeEncoder) :
    ∃ e', f.encode e = some e' ∧
      Step Ready e e' (fun fuel d => f.decode fuel d) f.value f.Room := by
  cases f with
  | biasedBit b frequency =>
    refine ⟨_, rfl, ((biasedBit_step e b frequency h).map Value.number).congr fun fuel d => ?_⟩
    exact Option.map_eq_bind
  | range symbol total =>
    refine ⟨_, rfl, ((equalRange_step e h).map Value.number).congr fun fuel d => ?_⟩
    exact Option.map_eq_bind
  | text msg buffer_size stats =>
    obtain ⟨htable, hmsg, hsize⟩ := h
    obtain ⟨e', hrun, hstep⟩ := text_step htable hmsg hsize e
    exact ⟨e', hrun, (hstep.map Value.text).congr fun fuel d => Option.map_eq_bind⟩

/-- What the decoder does with a value, to read the fields after it. -/
def fieldsNext (fields : List Field) (v : Value) (fuel : Nat) (d : RangeDecoder) :
    Option (List Value × RangeDecoder) :=
  decodeFields fuel fields d >>= fun r => some (v :: r.1, r.2)

theorem decodeFields_cons (fuel : Nat) (f : Field) (fields : List Field) (d : RangeDecoder) :
    decodeFields fuel (f :: fields) d =
      f.decode fuel d >>= fun r => fieldsNext fields r.1 fuel r.2 := by
  rw [decodeFields]
  rfl

/-- The fields, one by one: all but the last have room. -/
theorem fields_step (f : Field) (fields : List Field) : ∀ e : RangeEncoder,
    (∀ g ∈ f :: fields, g.Right) → (∀ g ∈ (f :: fields).dropLast, g.Room) →
      ∃ e', encodeFields (f :: fields) e = some e' ∧
        Step Ready e e' (fun fuel d => decodeFields fuel (f :: fields) d)
          ((f :: fields).map Field.value) False := by
  induction fields generalizing f with
  | nil =>
    intro e hright _
    obtain ⟨e', hrun, hstep⟩ := field_step (hright f List.mem_cons_self) e
    refine ⟨e', ?_, ((hstep.weaken False.elim).map fun v => [v]).congr fun fuel d => ?_⟩
    · rw [encodeFields, hrun]
      rfl
    · rw [decodeFields]
      rfl
  | cons g fields ih =>
    intro e hright hroom
    obtain ⟨e₁, hrun, hstep⟩ := field_step (hright f List.mem_cons_self) e
    obtain ⟨e', hrest, hsteps⟩ := ih g e₁ (fun g' hg => hright g' (List.mem_cons_of_mem _ hg))
      (fun g' hg => hroom g' (List.mem_cons_of_mem _ hg))
    have hexact : f.Room := hroom f List.mem_cons_self
    refine ⟨e', ?_, ?_⟩
    · rw [encodeFields, hrun]
      exact hrest
    · have hnext : Step Open e₁ e' (fieldsNext (g :: fields) f.value)
          ((f :: g :: fields).map Field.value) False := hsteps.opened.map (f.value :: ·)
      exact ((hstep.weaken fun _ => hexact).bind hnext).congr fun fuel d =>
        decodeFields_cons fuel f (g :: fields) d

/-! ## The start and the end -/

theorem code_toNat (message : List u8) : ∀ n ≤ 8,
    ((List.range n).foldl
        (fun (code : u64) i => code <<< 8 ||| (message.getD i 0).setWidth 64) 0).toNat =
        (List.range n).foldl (fun v j => v * 2 ^ 8 + byteAt message (0 + j)) 0 ∧
      (List.range n).foldl (fun v j => v * 2 ^ 8 + byteAt message (0 + j)) 0 < 2 ^ (8 * n) := by
  intro n
  induction n with
  | zero => exact fun _ => ⟨rfl, Nat.two_pow_pos _⟩
  | succ n ih =>
    intro hn
    obtain ⟨hcode, hlt⟩ := ih (by omega)
    simp only [List.range_succ, List.foldl_append, List.foldl_cons, List.foldl_nil]
    generalize (List.range n).foldl (fun v j => v * 2 ^ 8 + byteAt message (0 + j)) 0 = v
      at hcode hlt ⊢
    have hbyte := byteAt_lt message (0 + n)
    have hpow : 2 ^ (8 * (n + 1)) = 2 ^ (8 * n) * 2 ^ 8 := by rw [← Nat.pow_add, Nat.mul_succ]
    have hsmall : 2 ^ (8 * n) ≤ 2 ^ 56 := Nat.pow_le_pow_right (by omega) (by omega)
    refine ⟨?_, by omega⟩
    have hb := (message.getD n 0).isLt
    rw [BitVec.toNat_or, BitVec.toNat_setWidth, Nat.mod_eq_of_lt (by omega), shl_toNat, hcode,
      Nat.mod_eq_of_lt (by omega), Nat.mul_comm, ← Nat.two_pow_add_eq_or_of_lt hb, Nat.mul_comm,
      byteAt, Nat.zero_add]

/-- The decoder is where the encoder started. -/
theorem tracks_new (stray stray' : u64) (limit : Nat) (message : List u8) :
    Tracks message 0 (.new stray limit) (.new stray' message) where
  input := rfl
  code := by
    rw [window]
    exact (code_toNat message 8 le_rfl).1
  range := rfl
  low h := absurd rfl h

theorem top_byte (x : u64) : ((x >>> 56).setWidth 8 : u8).toNat = x.toNat / 2 ^ 56 := by
  have := x.isLt
  rw [BitVec.toNat_setWidth, BitVec.toNat_ushiftRight, Nat.shiftRight_eq_div_pow]
  omega

theorem byteAt_append (l rest : List u8) (b : u8) : byteAt (l ++ b :: rest) l.length = b.toNat := by
  rw [byteAt, List.getD_append_right _ _ _ _ le_rfl, Nat.sub_self, List.getD_cons_zero]

theorem window_one (l : List u8) (b : u8) : window (l ++ [b]) l.length = b.toNat * 2 ^ 56 := by
  rw [window_top, byteAt_append, window_of_le (by simp), Nat.zero_div, Nat.add_zero]

theorem window_two (l : List u8) (b b' : u8) :
    window (l ++ [b] ++ [b']) l.length = b.toNat * 2 ^ 56 + b'.toNat * 2 ^ 48 := by
  have hnext := window_one (l ++ [b]) b'
  have hlen : (l ++ [b]).length = l.length + 1 := by simp
  rw [hlen] at hnext
  have htop := window_top (l ++ [b] ++ [b']) l.length
  rw [hnext, List.append_assoc, List.singleton_append, byteAt_append] at htop
  rw [List.append_assoc, List.singleton_append, htop]
  omega

theorem last_toNat {low range : u64} (hne : range ≠ 0) (hle : low.toNat + range.toNat ≤ 2 ^ 64) :
    (low + range - 1).toNat = low.toNat + range.toNat - 1 := by
  have hpos : 0 < range.toNat := Nat.pos_of_ne_zero fun h => hne (BitVec.eq_of_toNat_eq h)
  have hone : (1 : u64).toNat = 1 := rfl
  rw [BitVec.toNat_sub, BitVec.toNat_add, hone]
  omega

theorem finalBytes_spec (e : RangeEncoder) : e.finalBytes.limit = e.limit ∧
    ∀ bytes, e.finalBytes.output = some bytes → ∃ out, e.output = some out ∧ out <+: bytes ∧
      e.finalBytes.remaining + bytes.length = e.remaining + out.length ∧
      (Open e → 2 ^ 48 ≤ e.range.toNat → Holds bytes out.length e) := by
  have htop : Top.toNat = 2 ^ 56 := rfl
  by_cases hroom : e.remaining = 0
  · have hfail : e.finalBytes = { e with output := none } := if_pos hroom
    rw [hfail]
    exact ⟨rfl, fun bytes hbytes => by cases hbytes⟩
  let e₁ := RangeEncoder.put { e with low := e.low + e.range - 1 }
  let e₂ := { e₁ with low := e₁.low <<< 8 }
  by_cases hshort : e.range < Top
  · by_cases hroom' : e.remaining - 1 = 0
    · have hfail : e.finalBytes = { e₂ with output := none } :=
        (if_neg hroom).trans ((if_pos hshort).trans (if_pos hroom'))
      rw [hfail]
      exact ⟨rfl, fun bytes hbytes => by cases hbytes⟩
    · have htwo : e.finalBytes = e₂.put :=
        (if_neg hroom).trans ((if_pos hshort).trans (if_neg hroom'))
      rw [htwo]
      refine ⟨rfl, fun bytes hbytes => ?_⟩
      obtain ⟨first, hfirst, rfl⟩ := Option.map_eq_some_iff.mp hbytes
      obtain ⟨out, hout, rfl⟩ := Option.map_eq_some_iff.mp hfirst
      refine ⟨out, hout, ?_, ?_, fun hopen hlong => .inr ?_⟩
      · rw [List.append_assoc]
        exact List.prefix_append _ _
      · show e.remaining - 1 - 1 + _ = _
        simp only [List.length_append, List.length_singleton]
        omega
      · have hlast := last_toNat hopen.1 hopen.2
        have hx := (e.low + e.range - 1).isLt
        rw [window_two, top_byte, top_byte]
        show _ ≤ (e.low + e.range - 1).toNat / 2 ^ 56 * 2 ^ 56 +
            ((e.low + e.range - 1) <<< 8).toNat / 2 ^ 56 * 2 ^ 48 ∧
          (e.low + e.range - 1).toNat / 2 ^ 56 * 2 ^ 56 +
            ((e.low + e.range - 1) <<< 8).toNat / 2 ^ 56 * 2 ^ 48 < _
        rw [shl_toNat, hlast]
        omega
  · have hone : e.finalBytes = e₁ := (if_neg hroom).trans (if_neg hshort)
    rw [hone]
    refine ⟨rfl, fun bytes hbytes => ?_⟩
    obtain ⟨out, hout, rfl⟩ := Option.map_eq_some_iff.mp hbytes
    refine ⟨out, hout, List.prefix_append _ _, ?_, fun hopen _ => .inr ?_⟩
    · show e.remaining - 1 + _ = _
      simp only [List.length_append, List.length_singleton]
      omega
    · rw [BitVec.lt_def, htop] at hshort
      rw [window_one, top_byte, last_toNat hopen.1 hopen.2]
      omega

/-- The bytes of `Finish` are in the interval. -/
theorem finish_spec (e : RangeEncoder) : e.finish.limit = e.limit ∧
    ∀ bytes, e.finish.output = some bytes → ∃ out, e.output = some out ∧ out <+: bytes ∧
      e.finish.remaining + bytes.length = e.remaining + out.length ∧
      (Open e → Holds bytes out.length e) := by
  obtain ⟨hlimit, hnormal⟩ := normalize_spec e
  unfold RangeEncoder.finish
  dsimp only
  by_cases hzero : e.normalize.low = 0
  · rw [if_pos hzero]
    refine ⟨hlimit, fun bytes hbytes => ?_⟩
    obtain ⟨out, hout, hpre, hcount, hnorm⟩ := hnormal bytes hbytes
    refine ⟨out, hout, hpre, hcount, fun hopen => ?_⟩
    have hn := hnorm hopen
    have hlong := hn.long
    have hlow : e.normalize.low.toNat = 0 := congrArg BitVec.toNat hzero
    refine hn.holds bytes (List.prefix_refl _) (.inr ?_)
    rw [hlow, window_of_le le_rfl]
    omega
  · rw [if_neg hzero]
    obtain ⟨hlimit', hfinal⟩ := finalBytes_spec e.normalize
    refine ⟨hlimit'.trans hlimit, fun bytes hbytes => ?_⟩
    obtain ⟨out', hout', hpre', hcount', hin⟩ := hfinal bytes hbytes
    obtain ⟨out, hout, hpre, hcount, hnorm⟩ := hnormal out' hout'
    refine ⟨out, hout, hpre.trans hpre', hcount'.trans hcount, fun hopen => ?_⟩
    have hn := hnorm hopen
    exact hn.holds bytes hpre' (hin ⟨hn.ne, hn.le⟩ hn.long)

/-- **The round trip of the range coder.** The decoder reads the fields that the encoder has written
into any number of bytes, as long as no field follows a text that fills its buffer. -/
theorem range_coder_round_trip (fields : List Field) (limit : Nat) (stray stray' : u64)
    (hright : ∀ f ∈ fields, f.Right) (hroom : ∀ f ∈ fields.dropLast, f.Room) :
    ∃ e, encodeFields fields (.new stray limit) = some e ∧ ∀ bytes, e.finish.output = some bytes →
      e.finish.used = bytes.length ∧ ∀ fuel, bytes.length < fuel → 256 ≤ fuel →
        ∃ d, decodeFields fuel fields (.new stray' bytes) = some (fields.map Field.value, d) := by
  have hused : ∀ e : RangeEncoder, e.limit = limit →
      (∀ out, e.output = some out → e.remaining + out.length = limit) →
      ∀ bytes, e.finish.output = some bytes → e.finish.used = bytes.length := by
    intro e hlimit hrem bytes hbytes
    obtain ⟨hfin, hspec⟩ := finish_spec e
    obtain ⟨out, hout, -, hcount, -⟩ := hspec bytes hbytes
    have := hrem out hout
    rw [RangeEncoder.used, hfin, hlimit]
    omega
  cases fields with
  | nil =>
    refine ⟨_, rfl, fun bytes hbytes =>
      ⟨hused _ rfl (fun out hout => ?_) bytes hbytes, fun fuel _ _ => ⟨_, rfl⟩⟩⟩
    cases hout
    rfl
  | cons f fields =>
    obtain ⟨e, hrun, hlimit, hstep⟩ := fields_step f fields (.new stray limit) hright hroom
    refine ⟨e, hrun, fun bytes hbytes => ?_⟩
    obtain ⟨-, hspec⟩ := finish_spec e
    obtain ⟨out, hout, hpre, -, hholds⟩ := hspec bytes hbytes
    obtain ⟨start, hstart, -, hcount, hlink⟩ := hstep out hout
    cases hstart
    have hl := hlink (.inl rfl)
    refine ⟨hused e hlimit (fun out' hout' => ?_) bytes hbytes, fun fuel hfuel htable => ?_⟩
    · rw [hout] at hout'
      cases hout'
      exact hcount
    · obtain ⟨d, hd, -⟩ := hl.decodes bytes fuel (.new stray' bytes) hpre (hholds hl.opened)
        hfuel htable (tracks_new stray stray' limit bytes)
      exact ⟨d, hd⟩

/-- The letter a and the end of a string. -/
def letterA : TableFormat where
  hash := 0
  total := 2
  log2total := 4096
  char2index ch := if ch = 97 then 1 else 0
  index2char i := if i = 1 then 97 else 0
  frequencies := List.replicate 2 ⟨writeLut [30000] 0 2, [30000]⟩

theorem tableRight_letterA : TableRight letterA where
  two_le := le_rfl
  le := by decide
  rows last hlast := by
    refine ⟨⟨writeLut [30000] 0 2, [30000]⟩, 0, ?_, ⟨rfl, by decide, by decide, by decide⟩, rfl⟩
    exact List.getElem?_replicate_of_lt hlast
  char2index_zero := rfl
  index2char_zero := rfl

theorem inTable_letterA : InTable letterA 97 := ⟨by decide, by decide, by decide, rfl⟩

/-- A text in a buffer with room, a number and a bit. -/
theorem range_coder_round_trip_letterA :
    let fields := [.text (List.replicate 2 97) 4 letterA, .range 3 7, .biasedBit 1 5]
    ∃ e, encodeFields fields (.new 0 16) = some e ∧ ∀ bytes, e.finish.output = some bytes →
      e.finish.used = bytes.length ∧ ∀ fuel, bytes.length < fuel → 256 ≤ fuel →
        ∃ d, decodeFields fuel fields (.new 0 bytes) =
          some ([.text (List.replicate 2 97), .number 3, .number 1], d) := by
  refine range_coder_round_trip
    [.text (List.replicate 2 97) 4 letterA, .range 3 7, .biasedBit 1 5] 16 0 0 ?_ ?_
  · intro f hf
    simp only [List.mem_cons, List.not_mem_nil, or_false] at hf
    rcases hf with rfl | rfl | rfl
    · exact ⟨tableRight_letterA, List.forall_mem_replicate.mpr (.inr inTable_letterA), by decide⟩
    · exact (by decide : (3 : u32).toNat < (7 : u32).toNat)
    · exact (by decide : 0 < (5 : u32).toNat)
  · intro f hf
    simp only [List.dropLast, List.mem_cons, List.not_mem_nil, or_false] at hf
    rcases hf with rfl | rfl
    · exact (by decide : 2 + 1 < 4)
    · trivial

/-- The empty text in a buffer of one byte, and a number. -/
theorem not_range_coder_round_trip :
    ¬∀ (fields : List Field) (limit : Nat) (stray stray' : u64), (∀ f ∈ fields, f.Right) →
      ∃ e, encodeFields fields (.new stray limit) = some e ∧ ∀ bytes, e.finish.output = some bytes →
        ∀ fuel, bytes.length < fuel → 256 ≤ fuel →
          ∃ d, decodeFields fuel fields (.new stray' bytes) = some (fields.map Field.value, d) := by
  intro hall
  obtain ⟨e, hrun, hdecodes⟩ := hall [.text [] 1 letterA, .range 3 7] 16 0 0 fun f hf => by
    simp only [List.mem_cons, List.not_mem_nil, or_false] at hf
    rcases hf with rfl | rfl
    · exact ⟨tableRight_letterA, List.forall_mem_nil _, by decide⟩
    · exact (by decide : (3 : u32).toNat < (7 : u32).toNat)
  have hbytes : ((encodeFields [.text [] 1 letterA, .range 3 7] (.new 0 16)).bind
      fun e => e.finish.output) = some [0xff, 0x49] := by decide +kernel
  rw [hrun] at hbytes
  obtain ⟨d, hd⟩ := hdecodes _ hbytes 256 (by decide) le_rfl
  have hread : (decodeFields 256 [.text [] 1 letterA, .range 3 7]
      (.new 0 [0xff, 0x49])).map Prod.fst =
      some [.text [], .number 1] := by decide +kernel
  rw [hd] at hread
  have hsame : [Value.text [], .number 3] = [.text [], .number 1] := Option.some.inj hread
  exact absurd hsame (by decide)

end Calls

end Libcat.Codec.RangeCoder
