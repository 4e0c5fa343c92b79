import Mathlib.Data.List.GetD
import Mathlib.Tactic

/-!
# The symbol tables of RangeCoder

A row of `TableFormat` has the cumulative frequencies of the symbols behind a symbol, and two look-up
tables by the high byte of a frequency. The encoder reads the interval of a symbol from the row; the
decoder searches for the symbol of a frequency between the bounds that it has looked up.

- `edge`: the ends of the intervals, which have symbol 0 and the end at 2^16 that the row leaves out.
- `lutLoop_spec`: the bounds of the look-up tables. `search_spec`: the search between bounds.
- `symbol_lookup`: both sides agree.
-/

namespace Libcat.Codec.SymbolTable

section Model

def SYMBOL_LUT_BITS : Nat := 8

def SYMBOL_LUT_SHIFT : Nat := 16 - SYMBOL_LUT_BITS

def SYMBOL_LUT_BYTES : Nat := 1 <<< SYMBOL_LUT_BITS

/-- A row of the table: `lut_low` and `lut_high`, entry by entry, and what is behind them. -/
structure Row where
  lut : List (Nat × Nat)
  base : List Nat

structure TableFormat where
  hash : Nat
  total : Nat
  log2total : Nat
  char2index : Nat → Nat
  index2char : Nat → Nat
  frequencies : List Row

/-! ## The look-up tables -/

structure LutState where
  symbol : Nat
  last_high : Nat
  last_low : Nat

/-- The inner loop. It stops at the last symbol, so that `symbol` does not wrap; what it reads there
is `stray`. -/
def lutForever (symbol_freqs : List Nat) (stray total jj : Nat) : Nat → LutState → LutState
  | 0, s => s
  | fuel + 1, s =>
    let high := symbol_freqs.getD s.symbol stray >>> SYMBOL_LUT_SHIFT
    if high > jj ∨ s.symbol ≥ total - 1 then s
    else lutForever symbol_freqs stray total jj fuel { s with symbol := s.symbol + 1, last_high := s.symbol }

/-- The first entries of the look-up tables of a row. -/
def lutLoop (symbol_freqs : List Nat) (stray total : Nat) : Nat → LutState × List (Nat × Nat)
  | 0 => (⟨0, 0, 0⟩, [])
  | jj + 1 =>
    let r := lutLoop symbol_freqs stray total jj
    let s := lutForever symbol_freqs stray total jj total r.1
    ({ s with last_low := s.last_high }, r.2 ++ [(s.last_low, s.last_high)])

/-- The look-up tables. -/
def writeLut (symbol_freqs : List Nat) (stray total : Nat) : List (Nat × Nat) :=
  (lutLoop symbol_freqs stray total SYMBOL_LUT_BYTES).2

/-! ## Encoder and decoder -/

/-- `RangeEncoder::GetTableSymbol`: the new `last`, `symbol_low` and `symbol_range`. -/
def encoderGetTableSymbol (stats : TableFormat) (last ch : Nat) : Option (Nat × Nat × Nat) := do
  let symbol := stats.char2index ch
  let row ← stats.frequencies[last]?
  if symbol ≠ 0 then
    let symbol_low ← row.base[symbol - 1]?
    if symbol = stats.total - 1 then
      some (symbol, symbol_low, (0x10000 - symbol_low) % 2 ^ 16)
    else
      let next ← row.base[symbol]?
      some (symbol, symbol_low, (next + 2 ^ 16 - symbol_low) % 2 ^ 16)
  else
    let next ← row.base[0]?
    some (0, 0, next)

/-- The binary search of the decoder; a read outside of the row is `none`. -/
def search (base : List Nat) (freq : Nat) : Nat → Nat → Nat → Option Nat
  | 0, below, above => if below = above then some below else none
  | fuel + 1, below, above =>
    if below = above then some below
    else
      let pivot := (above + 2 ^ 32 - below + 1) % 2 ^ 32 / 2 + below
      base[pivot]?.bind fun v =>
        if freq ≥ v then search base freq fuel pivot above else search base freq fuel below (pivot - 1)

/-- `RangeDecoder::GetTableSymbol`: the symbol, `symbol_low` and `symbol_range`. -/
def decoderGetTableSymbol (fuel : Nat) (stats : TableFormat) (last freq : Nat) :
    Option (Nat × Nat × Nat) := do
  let row ← stats.frequencies[last]?
  let lut ← row.lut[freq >>> SYMBOL_LUT_SHIFT]?
  let below ← search row.base freq fuel lut.1 lut.2
  let first ← row.base[0]?
  if below ≠ 0 ∨ freq ≥ first then
    let symbol_low ← row.base[below]?
    let below := below + 1
    if below = stats.total - 1 then
      some (below % 2 ^ 8, symbol_low, (0x10000 - symbol_low) % 2 ^ 16)
    else
      let next ← row.base[below]?
      some (below % 2 ^ 8, symbol_low, (next + 2 ^ 16 - symbol_low) % 2 ^ 16)
  else
    some (0, 0, first)

/-- A row as it should be. -/
structure StrictRow (total : Nat) (base : List Nat) : Prop where
  length : base.length = total - 1
  strict : base.Pairwise (· < ·)
  pos : ∀ v ∈ base, 0 < v
  lt : ∀ v ∈ base, v < 2 ^ 16

/-- Where the interval of a symbol starts, which is where that of the symbol before ends. -/
def edge (base : List Nat) (symbol : Nat) : Nat := (0 :: base ++ [2 ^ 16]).getD symbol 0

end Model

section Spec

variable {total : Nat} {base : List Nat}

/-! ## Intervals -/

theorem edge_zero : edge base 0 = 0 := rfl

theorem edge_succ {i : Nat} (hi : i < base.length) : edge base (i + 1) = base[i] := by
  unfold edge
  rw [List.cons_append, List.getD_cons_succ, List.getD_append _ _ _ _ hi, List.getD_eq_getElem]

theorem edge_last : edge base (base.length + 1) = 2 ^ 16 := by
  unfold edge
  rw [List.cons_append, List.getD_cons_succ, List.getD_append_right _ _ _ _ (le_refl _), Nat.sub_self]
  rfl

theorem StrictRow.lt_getElem (h : StrictRow total base) {i j : Nat} (hij : i < j)
    (hj : j < base.length) : base[i] < base[j] :=
  List.pairwise_iff_getElem.mp h.strict i j (hij.trans hj) hj hij

theorem StrictRow.edge_lt (h : StrictRow total base) {i j : Nat} (hij : i < j)
    (hj : j ≤ base.length + 1) : edge base i < edge base j := by
  have hsorted : (0 :: base ++ [2 ^ 16]).Pairwise (· < ·) := by
    rw [List.pairwise_append, List.pairwise_cons]
    refine ⟨⟨h.pos, h.strict⟩, List.pairwise_singleton _ _, fun a ha b hb => ?_⟩
    rw [List.mem_singleton.mp hb]
    rcases List.mem_cons.mp ha with rfl | ha
    · exact Nat.two_pow_pos 16
    · exact h.lt a ha
  have hlen : (0 :: base ++ [2 ^ 16]).length = base.length + 2 := by simp
  unfold edge
  rw [List.getD_eq_getElem _ _ (by omega), List.getD_eq_getElem _ _ (by omega)]
  exact List.pairwise_iff_getElem.mp hsorted i j (by omega) (by omega) hij

theorem StrictRow.edge_le (h : StrictRow total base) {i j : Nat} (hij : i ≤ j)
    (hj : j ≤ base.length + 1) : edge base i ≤ edge base j := by
  rcases Nat.lt_or_eq_of_le hij with hlt | rfl
  · exact (h.edge_lt hlt hj).le
  · exact le_refl _

/-- A frequency is in the interval of one symbol. -/
theorem StrictRow.symbol_unique (h : StrictRow total base) {x i j : Nat} (hi : i ≤ base.length)
    (hj : j ≤ base.length) (hxi : edge base i ≤ x ∧ x < edge base (i + 1))
    (hxj : edge base j ≤ x ∧ x < edge base (j + 1)) : i = j := by
  rcases Nat.lt_trichotomy i j with hlt | rfl | hlt
  · have := h.edge_le (show _ + 1 ≤ _ from hlt) (by omega)
    omega
  · rfl
  · have := h.edge_le (show _ + 1 ≤ _ from hlt) (by omega)
    omega

/-- What both functions give for the symbol behind an entry. -/
theorem StrictRow.range_eq (h : StrictRow total base) {s : Nat} (hs : s < base.length) (symbol : Nat) :
    (if s + 1 = total - 1 then some (symbol, base[s], (0x10000 - base[s]) % 2 ^ 16)
      else base[s + 1]?.bind fun next => some (symbol, base[s], (next + 2 ^ 16 - base[s]) % 2 ^ 16)) =
      some (symbol, edge base (s + 1), edge base (s + 1 + 1) - edge base (s + 1)) := by
  have hlen := h.length
  have hlt := h.lt _ (List.getElem_mem hs)
  have hpos := h.pos _ (List.getElem_mem hs)
  rw [edge_succ hs]
  by_cases hend : s + 1 = total - 1
  · have hedge : edge base (s + 1 + 1) = 2 ^ 16 := by
      rw [hend, ← hlen]
      exact edge_last
    rw [if_pos hend, hedge, Nat.mod_eq_of_lt (by omega)]
    rfl
  · have hnext : s + 1 < base.length := by omega
    have hgap := h.lt_getElem (Nat.lt_add_one s) hnext
    have hlt' := h.lt _ (List.getElem_mem hnext)
    rw [if_neg hend, List.getElem?_eq_getElem hnext, edge_succ hnext, Option.bind_some,
      Nat.sub_add_comm hgap.le, Nat.add_mod_right, Nat.mod_eq_of_lt (by omega)]

/-- The encoder gives the interval of the symbol. -/
theorem encoder_spec {stats : TableFormat} {last ch : Nat} {row : Row}
    (htotal : 2 ≤ stats.total) (hrow : stats.frequencies[last]? = some row)
    (h : StrictRow stats.total row.base) (hch : stats.char2index ch < stats.total) :
    encoderGetTableSymbol stats last ch =
      some (stats.char2index ch, edge row.base (stats.char2index ch),
        edge row.base (stats.char2index ch + 1) - edge row.base (stats.char2index ch)) := by
  have hlen := h.length
  unfold encoderGetTableSymbol
  rw [hrow]
  generalize stats.char2index ch = symbol at hch ⊢
  dsimp only [Option.bind_eq_bind, Option.bind_some]
  by_cases hzero : symbol = 0
  · subst hzero
    have h0 : 0 < row.base.length := by omega
    rw [if_neg (not_not.mpr rfl), List.getElem?_eq_getElem h0, edge_zero, Nat.sub_zero, edge_succ h0]
    rfl
  · rw [if_pos hzero]
    obtain ⟨i, rfl⟩ := Nat.exists_eq_succ_of_ne_zero hzero
    have hi : i < row.base.length := by omega
    rw [Nat.succ_sub_one, List.getElem?_eq_getElem hi, Nat.succ_eq_add_one]
    dsimp only [Option.bind_some]
    exact h.range_eq hi (i + 1)

/-! ## The look-up tables -/

/-- `s` entries have a high byte up to `jj`. -/
structure Reached (base : List Nat) (jj s : Nat) : Prop where
  le : s ≤ base.length
  below : ∀ i (hi : i < base.length), i < s → base[i] >>> SYMBOL_LUT_SHIFT ≤ jj
  above : ∀ i (hi : i < base.length), s ≤ i → jj < base[i] >>> SYMBOL_LUT_SHIFT

theorem shift_mono {v w : Nat} (h : v ≤ w) : v >>> SYMBOL_LUT_SHIFT ≤ w >>> SYMBOL_LUT_SHIFT := by
  rw [Nat.shiftRight_eq_div_pow, Nat.shiftRight_eq_div_pow]
  exact Nat.div_le_div_right h

/-- The pointer goes on to the first entry with a larger high byte. -/
theorem lutForever_spec (h : StrictRow total base) (htotal : 2 ≤ total) (stray jj : Nat) :
    ∀ (fuel : Nat) (s : LutState), total - 1 - s.symbol < fuel → s.symbol ≤ base.length →
      (∀ i (hi : i < base.length), i < s.symbol → base[i] >>> SYMBOL_LUT_SHIFT ≤ jj) →
      s.last_high = s.symbol - 1 →
      let r := lutForever base stray total jj fuel s
      Reached base jj r.symbol ∧ s.symbol ≤ r.symbol ∧ r.last_high = r.symbol - 1 ∧
        r.last_low = s.last_low := by
  have hlen := h.length
  intro fuel
  induction fuel with
  | zero => exact fun s hfuel => absurd hfuel (Nat.not_lt_zero _)
  | succ fuel ih =>
    intro s hfuel hle hbelow hhigh
    dsimp only [lutForever]
    split
    · next hstop =>
      refine ⟨⟨hle, hbelow, fun i hi hsi => ?_⟩, le_refl _, hhigh, rfl⟩
      rcases hstop with hbig | hend
      · have hs : s.symbol < base.length := by omega
        rw [List.getD_eq_getElem _ _ hs] at hbig
        refine Nat.lt_of_lt_of_le hbig (shift_mono ?_)
        rcases Nat.lt_or_eq_of_le hsi with hlt | he
        · exact (h.lt_getElem hlt hi).le
        · exact le_of_eq (getElem_congr_idx he)
      · exact absurd hi (by omega)
    · next hgo =>
      rw [not_or, Nat.not_lt, ge_iff_le, Nat.not_le] at hgo
      have hs : s.symbol < base.length := by omega
      have hnext : ∀ i (hi : i < base.length), i < s.symbol + 1 → base[i] >>> SYMBOL_LUT_SHIFT ≤ jj := by
        intro i hi his
        rcases Nat.lt_or_eq_of_le (Nat.le_of_lt_succ his) with hlt | rfl
        · exact hbelow i hi hlt
        · have := hgo.1
          rwa [List.getD_eq_getElem _ _ hs] at this
      obtain ⟨hreached, hfrom, hrest⟩ := ih { s with symbol := s.symbol + 1, last_high := s.symbol }
        (by dsimp only; omega) hs hnext rfl
      exact ⟨hreached, (Nat.le_succ _).trans hfrom, hrest⟩

/-- The bounds in an entry: what the entry before reached, and what this one does. -/
structure LutEntry (base : List Nat) (jj : Nat) (e : Nat × Nat) : Prop where
  bounds : ∃ low high, e = (low - 1, high - 1) ∧ low ≤ high ∧ Reached base jj high ∧
    ∀ i (hi : i < base.length), i < low → base[i] >>> SYMBOL_LUT_SHIFT < jj

theorem lutLoop_spec (h : StrictRow total base) (htotal : 2 ≤ total) (stray n : Nat) :
    let r := lutLoop base stray total n
    r.2.length = n ∧ (∀ jj (hjj : jj < r.2.length), LutEntry base jj r.2[jj]) ∧
      r.1.symbol ≤ base.length ∧
      (∀ i (hi : i < base.length), i < r.1.symbol → base[i] >>> SYMBOL_LUT_SHIFT < n) ∧
      r.1.last_high = r.1.symbol - 1 ∧ r.1.last_low = r.1.symbol - 1 := by
  induction n with
  | zero => exact ⟨rfl, fun _ hjj => absurd hjj (Nat.not_lt_zero _), Nat.zero_le _,
      fun _ _ hi => absurd hi (Nat.not_lt_zero _), rfl, rfl⟩
  | succ n ih =>
    obtain ⟨hlength, hentries, hle, hbelow, hhigh, hlow⟩ := ih
    dsimp only [lutLoop]
    set r := lutLoop base stray total n with hr
    obtain ⟨hreached, hfrom, hhigh', hlow'⟩ := lutForever_spec h htotal stray n total r.1 (by omega) hle
      (fun i hi his => (hbelow i hi his).le) hhigh
    refine ⟨by rw [List.length_append, hlength]; rfl, fun jj hjj => ?_, hreached.le,
      fun i hi his => Nat.lt_succ_of_le (hreached.below i hi his), hhigh', hhigh'⟩
    rw [List.length_append, List.length_singleton, hlength] at hjj
    rcases Nat.lt_or_eq_of_le (Nat.le_of_lt_succ hjj) with hlt | rfl
    · rw [List.getElem_append_left (by rw [hlength]; exact hlt)]
      exact hentries jj _
    · rw [List.getElem_append_right (by rw [hlength])]
      simp only [hlength, Nat.sub_self, List.getElem_cons_zero]
      refine ⟨r.1.symbol, _, Prod.ext (hlow'.trans hlow) hhigh', hfrom, hreached, hbelow⟩

/-- Every entry of the look-up tables is there, with its bounds. -/
theorem writeLut_spec (h : StrictRow total base) (htotal : 2 ≤ total) (stray : Nat) {jj : Nat}
    (hjj : jj < SYMBOL_LUT_BYTES) :
    ∃ e, (writeLut base stray total)[jj]? = some e ∧ LutEntry base jj e := by
  obtain ⟨hlength, hentries, -⟩ := lutLoop_spec h htotal stray SYMBOL_LUT_BYTES
  have hin : jj < (writeLut base stray total).length := by
    unfold writeLut
    omega
  exact ⟨_, List.getElem?_eq_getElem hin, hentries jj hin⟩

/-! ## The search -/

/-- The last entry that is not greater is between the bounds, if there is one. -/
structure Between (base : List Nat) (freq below above : Nat) : Prop where
  le : below ≤ above
  lt : above < base.length
  from_below : below = 0 ∨ ∃ v, base[below]? = some v ∧ v ≤ freq
  to_above : ∀ i (hi : i < base.length), above < i → freq < base[i]

theorem search_spec (h : StrictRow total base) (htotal : total ≤ 256) (freq : Nat) :
    ∀ (fuel below above : Nat), above - below ≤ fuel → Between base freq below above →
      ∃ s, search base freq fuel below above = some s ∧ Between base freq s s := by
  have hlen := h.length
  intro fuel
  induction fuel with
  | zero =>
    intro below above hfuel hb
    have he : below = above := Nat.le_antisymm hb.le (by omega)
    subst he
    exact ⟨below, if_pos rfl, hb⟩
  | succ fuel ih =>
    intro below above hfuel hb
    have hle := hb.le
    have hlt := hb.lt
    unfold search
    by_cases he : below = above
    · subst he
      exact ⟨below, if_pos rfl, hb⟩
    · rw [if_neg he]
      have hpivot : (above + 2 ^ 32 - below + 1) % 2 ^ 32 / 2 + below = (above - below + 1) / 2 + below := by
        rw [Nat.sub_add_comm hle, Nat.add_right_comm, Nat.add_mod_right, Nat.mod_eq_of_lt (by omega)]
      rw [hpivot]
      set pivot := (above - below + 1) / 2 + below with hp
      have hin : pivot < base.length := by omega
      dsimp only
      rw [List.getElem?_eq_getElem hin, Option.bind_some]
      by_cases hge : freq ≥ base[pivot]
      · rw [if_pos hge]
        exact ih pivot above (by omega) ⟨by omega, hlt, .inr ⟨_, List.getElem?_eq_getElem hin, hge⟩,
          hb.to_above⟩
      · rw [if_neg hge]
        refine ih below (pivot - 1) (by omega) ⟨by omega, by omega, hb.from_below, fun i hi hpi => ?_⟩
        have hle' : base[pivot] ≤ base[i] := by
          rcases Nat.lt_or_eq_of_le (show pivot ≤ i by omega) with hlt' | he'
          · exact (h.lt_getElem hlt' hi).le
          · exact le_of_eq (getElem_congr_idx he')
        exact (Nat.not_le.mp hge).trans_le hle'

/-- The bounds of an entry are bounds for all frequencies with its high byte. -/
theorem LutEntry.between (h : StrictRow total base) (htotal : 2 ≤ total) {freq : Nat} {e : Nat × Nat}
    (he : LutEntry base (freq >>> SYMBOL_LUT_SHIFT) e) : Between base freq e.1 e.2 := by
  have hlen := h.length
  obtain ⟨low, high, rfl, hle, hreached, hlow⟩ := he.bounds
  have hhigh := hreached.le
  refine ⟨by dsimp only; omega, by dsimp only; omega, ?_, fun i hi hhi => ?_⟩
  · by_cases hzero : low = 0
    · left
      dsimp only
      omega
    · right
      have hin : low - 1 < base.length := by omega
      refine ⟨_, List.getElem?_eq_getElem hin, ?_⟩
      by_contra hgt
      have := hlow (low - 1) hin (by omega)
      have := shift_mono (Nat.not_le.mp hgt).le
      omega
  · by_contra hge
    have := hreached.above i hi (by dsimp only at hhi; omega)
    have := shift_mono (Nat.not_lt.mp hge)
    omega

/-- What the search has found is the symbol with the frequency in its interval. -/
theorem Between.edges {freq s : Nat} (hfreq : freq < 2 ^ 16)
    (hb : Between base freq s s) : ∃ v w, base[0]? = some v ∧ base[s]? = some w ∧
      if s ≠ 0 ∨ freq ≥ v then edge base (s + 1) ≤ freq ∧ freq < edge base (s + 2)
      else edge base 0 ≤ freq ∧ freq < edge base 1 := by
  have hs := hb.lt
  have h0 : 0 < base.length := Nat.zero_lt_of_lt hs
  refine ⟨_, _, List.getElem?_eq_getElem h0, List.getElem?_eq_getElem hs, ?_⟩
  split
  · next hfound =>
    rw [edge_succ hs]
    constructor
    · rcases hb.from_below with rfl | ⟨v, hv, hle⟩
      · exact hfound.resolve_left (not_not.mpr rfl)
      · rw [List.getElem?_eq_getElem hs] at hv
        rwa [← Option.some.inj hv] at hle
    · by_cases hend : s + 1 = base.length
      · rw [show s + 2 = base.length + 1 by omega, edge_last]
        exact hfreq
      · have hnext : s + 1 < base.length := by omega
        rw [edge_succ hnext]
        exact hb.to_above (s + 1) hnext (Nat.lt_succ_self s)
  · next hnone =>
    rw [not_or, ge_iff_le, Nat.not_le] at hnone
    rw [edge_zero, edge_succ h0]
    exact ⟨Nat.zero_le _, hnone.2⟩

/-- The decoder gives a symbol whose interval has the frequency. -/
theorem decoder_spec {stats : TableFormat} {last freq fuel : Nat} {row : Row} (htotal : 2 ≤ stats.total)
    (hlarge : stats.total ≤ 256) (hrow : stats.frequencies[last]? = some row)
    (h : StrictRow stats.total row.base) {stray : Nat} (hlut : row.lut = writeLut row.base stray stats.total)
    (hfreq : freq < 2 ^ 16) (hfuel : 256 ≤ fuel) :
    ∃ symbol, symbol < stats.total ∧ edge row.base symbol ≤ freq ∧ freq < edge row.base (symbol + 1) ∧
      decoderGetTableSymbol fuel stats last freq =
        some (symbol, edge row.base symbol, edge row.base (symbol + 1) - edge row.base symbol) := by
  have hlen := h.length
  have hjj : freq >>> SYMBOL_LUT_SHIFT < SYMBOL_LUT_BYTES := by
    rw [Nat.shiftRight_eq_div_pow]
    exact Nat.div_lt_of_lt_mul hfreq
  obtain ⟨e, hentry, he⟩ := writeLut_spec h htotal stray hjj
  have hbounds := he.between h htotal
  obtain ⟨s, hsearch, hs⟩ := search_spec h hlarge freq fuel e.1 e.2
    (by have := hbounds.lt; omega) hbounds
  obtain ⟨v, w, hv, hw, hedges⟩ := hs.edges hfreq
  have hin := hs.lt
  obtain ⟨h0, rfl⟩ := List.getElem?_eq_some_iff.mp hv
  obtain ⟨_, rfl⟩ := List.getElem?_eq_some_iff.mp hw
  unfold decoderGetTableSymbol
  rw [hrow]
  dsimp only [Option.bind_eq_bind, Option.bind_some]
  rw [hlut, hentry]
  dsimp only [Option.bind_some]
  rw [hsearch, hv]
  dsimp only [Option.bind_some]
  by_cases hfound : s ≠ 0 ∨ freq ≥ row.base[0]
  · rw [if_pos hfound] at hedges
    refine ⟨s + 1, by omega, hedges.1, hedges.2, ?_⟩
    rw [if_pos hfound, hw]
    dsimp only [Option.bind_some]
    rw [Nat.mod_eq_of_lt (by omega : s + 1 < 2 ^ 8)]
    exact h.range_eq hin (s + 1)
  · rw [if_neg hfound] at hedges
    refine ⟨0, by omega, hedges.1, hedges.2, ?_⟩
    rw [if_neg hfound, edge_zero, Nat.sub_zero, edge_succ h0]

/-- **Look-up of a frequency**: the search ends within the row, with the symbol, the low end and the
range that the encoder has for the characters of that symbol; the encoder's interval has the frequency
for no other. -/
theorem symbol_lookup (stats : TableFormat) (last freq fuel stray : Nat) (row : Row)
    (htotal : 2 ≤ stats.total) (hlarge : stats.total ≤ 256) (hrow : stats.frequencies[last]? = some row)
    (h : StrictRow stats.total row.base) (hlut : row.lut = writeLut row.base stray stats.total)
    (hfreq : freq < 2 ^ 16) (hfuel : 256 ≤ fuel) :
    ∃ symbol low range, decoderGetTableSymbol fuel stats last freq = some (symbol, low, range) ∧
      symbol < stats.total ∧ low ≤ freq ∧ freq < low + range ∧
      ∀ ch, stats.char2index ch < stats.total →
        ∃ low' range', encoderGetTableSymbol stats last ch = some (stats.char2index ch, low', range') ∧
          (low' ≤ freq ∧ freq < low' + range' ↔ stats.char2index ch = symbol) ∧
          (stats.char2index ch = symbol → low' = low ∧ range' = range) := by
  have hlen := h.length
  obtain ⟨symbol, hsymbol, hlow, hhigh, hrun⟩ := decoder_spec htotal hlarge hrow h hlut
    hfreq hfuel
  have hsum : ∀ s, s ≤ row.base.length →
      edge row.base s + (edge row.base (s + 1) - edge row.base s) = edge row.base (s + 1) := fun s hs =>
    Nat.add_sub_of_le (h.edge_le (Nat.le_succ s) (by omega))
  refine ⟨symbol, _, _, hrun, hsymbol, hlow, ?_, fun ch hch => ⟨_, _, encoder_spec htotal hrow h hch, ?_,
    ?_⟩⟩
  · rw [hsum symbol (by omega)]
    exact hhigh
  · rw [hsum _ (by omega)]
    constructor
    · exact fun hin => h.symbol_unique (by omega) (by omega) hin ⟨hlow, hhigh⟩
    · intro he
      rw [he]
      exact ⟨hlow, hhigh⟩
  · intro he
    rw [he]
    exact ⟨rfl, rfl⟩

/-- Three symbols, two of them in the first 256 frequencies. -/
theorem symbol_lookup_three :
    let base := [3, 200]
    let stats : TableFormat := ⟨0, 3, 0, fun ch => ch % 3, id, [⟨writeLut base 0 3, base⟩]⟩
    ∃ symbol low range, decoderGetTableSymbol 256 stats 0 199 = some (symbol, low, range) ∧
      symbol < 3 ∧ low ≤ 199 ∧ 199 < low + range ∧
      ∀ ch, ch % 3 < 3 → ∃ low' range', encoderGetTableSymbol stats 0 ch = some (ch % 3, low', range') ∧
        (low' ≤ 199 ∧ 199 < low' + range' ↔ ch % 3 = symbol) ∧
        (ch % 3 = symbol → low' = low ∧ range' = range) :=
  symbol_lookup ⟨0, 3, 0, fun ch => ch % 3, id, [⟨writeLut [3, 200] 0 3, [3, 200]⟩]⟩ 0 199 256 0 _
    (by decide) (by decide) rfl ⟨rfl, by decide, by decide, by decide⟩ rfl (by decide) (by decide)

end Spec

end Libcat.Codec.SymbolTable
