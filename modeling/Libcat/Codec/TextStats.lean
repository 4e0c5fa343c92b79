import Libcat.Codec.SymbolTable
import Libcat.Math.BitMath

/-!
# TextStatsCollector

`Tally` counts which byte follows which, `GenerateMinimalStaticTable` makes a row of cumulative
frequencies of what follows each byte. The sums are scaled to 16 bits and forced to increase; when that
runs over the end, what is too much is taken from the entries from the first one on that is 256 or
more.

- `cumulative_eq`: the sums do not overflow. `share` is what the scaling makes of them.
- `needed` is the row before the correction, in closed form.
- `generated_rows`: the rows are right exactly where the correction leaves the first entry it is made to
  above the one before.
-/

namespace Libcat.Codec.TextStats

open SymbolTable

section Model

structure TextStatsCollector where
  last : Nat
  total : Nat
  frequencies : Nat → Nat → Nat
  seen : Nat → Bool

/-! ## `Tally` -/

/-- The constructor: the terminator is symbol 0, and has been seen. -/
def TextStatsCollector.new : TextStatsCollector where
  last := 0
  total := 1
  frequencies := Function.update (fun _ _ => 0) 0 (Function.update (fun _ => 0) 0 1)
  seen := Function.update (fun _ => false) 0 true

def tally (c : TextStatsCollector) (x : u8) : TextStatsCollector :=
  let x := x.toNat
  let tf := c.frequencies c.last x + 1
  let counted := Function.update (c.frequencies c.last) x tf
  let row := if tf ≥ 0x01000000 then fun ii => if counted ii > 1 then counted ii >>> 1 else counted ii
    else counted
  { frequencies := Function.update c.frequencies c.last row
    total := if !c.seen x then c.total + 1 else c.total
    seen := Function.update c.seen x true
    last := x }

/-! ## `GenerateMinimalStaticTable` -/

/-- `index2char` and `char2index` while they are written. -/
structure Index where
  jj : Nat
  index2char : Nat → Nat
  char2index : Nat → Nat

/-- The loop over the characters. What `index2char` does not get from it is set to 0. -/
def writeIndex (c : TextStatsCollector) : Nat → Index
  | 0 => ⟨0, fun _ => 0, fun _ => 0⟩
  | ii + 1 =>
    let s := writeIndex c ii
    if c.seen ii then
      ⟨s.jj + 1, Function.update s.index2char s.jj ii, Function.update s.char2index ii s.jj⟩
    else { s with char2index := Function.update s.char2index ii 0 }

/-- `sum` after some symbols. -/
def cumulative (freq : Nat → Nat) : Nat → Nat
  | 0 => 0
  | jj + 1 => (cumulative freq jj + freq jj) % 2 ^ 32

/-- `adjcum_new` before it is forced to increase. -/
def scale (freq : Nat → Nat) (total jj : Nat) : Nat :=
  let work := cumulative freq (jj + 1)
  let smax := cumulative freq total
  if smax ≠ 0 then ((work <<< 32) / smax % 2 ^ 32) >>> 16
  else (((jj + 1) <<< 32) / total % 2 ^ 32) >>> 16

/-- The loop that writes a row: `adjcum`, and the entries. -/
def normalize (scaled : Nat → Nat) : Nat → Nat × List Nat
  | 0 => (0, [])
  | jj + 1 =>
    let r := normalize scaled jj
    let adjcum_new := scaled jj
    let adjcum_new := if r.1 ≥ adjcum_new then r.1 + 1 else adjcum_new
    (adjcum_new, r.2 ++ [adjcum_new % 2 ^ 16])

/-- The loop that takes `count` away; `last` stays what it is. -/
def borrow (count : Nat) : Nat → List Nat → List Nat
  | _, [] => []
  | cumsub, f :: symbol_freqs =>
    let last := 0
    let slack := (f + 2 ^ 32 - last) % 2 ^ 32
    let cumsub := if slack ≥ 0x100 then count else cumsub
    (f + 2 ^ 32 - cumsub) % 2 ^ 16 :: borrow count cumsub symbol_freqs

/-- The entries of a row. -/
def symbolFreqs (scaled : Nat → Nat) (total : Nat) : List Nat :=
  let r := normalize scaled (total - 1)
  if r.1 ≥ 0x10000 then borrow (r.1 - 0xFFFF) 0 r.2 else r.2

/-- How often the symbols follow the symbol `ii`. -/
def following (c : TextStatsCollector) (ii jj : Nat) : Nat :=
  c.frequencies ((writeIndex c 256).index2char ii) ((writeIndex c 256).index2char jj)

/-- A row, with what the memory behind it holds meanwhile. -/
def generateRow (c : TextStatsCollector) (stray ii : Nat) : Row :=
  let symbol_freqs := symbolFreqs (scale (following c ii) c.total) c.total
  ⟨writeLut symbol_freqs stray c.total, symbol_freqs⟩

/-- `GenerateMinimalStaticTable`, without its text. The hash of what is behind it and the logarithm of
the total are functions from elsewhere. -/
def generateMinimalStaticTable (murmurHash : TableFormat → Nat) (log2 : Nat → Nat) (stray : Nat → Nat)
    (c : TextStatsCollector) : TableFormat :=
  let table : TableFormat :=
    { hash := 0
      total := c.total
      log2total := log2 c.total
      char2index := (writeIndex c 256).char2index
      index2char := (writeIndex c 256).index2char
      frequencies := (List.range c.total).map fun ii => generateRow c (stray ii) ii }
  { table with hash := murmurHash table }

/-- The entries of a row in `VerifyTableIntegrity`. -/
def increasing : Nat → List Nat → Bool
  | _, [] => true
  | last, x :: base => if last ≥ x then false else increasing x base

/-- What `VerifyTableIntegrity` does with a row. -/
def verifyRow (total : Nat) (row : Row) : Bool :=
  increasing 0 row.base &&
    row.lut.all fun e => !(decide (e.1 > e.2) || decide (e.1 ≥ total - 1) || decide (e.2 ≥ total - 1))

/-- `VerifyTableIntegrity`. -/
def verifyTableIntegrity (murmurHash : TableFormat → Nat) (log2 : Nat → Nat) (table : TableFormat) :
    Bool :=
  let used := (List.range 256).countP fun ii => table.char2index ii != 0
  let listed := (List.range 256).countP fun ii => table.index2char ii != 0
  murmurHash { table with hash := 0 } == table.hash && !decide (table.total > 256) &&
    ((List.range 256).all fun ii =>
      table.char2index ii == 0 || table.index2char (table.char2index ii) == ii) &&
    used + 1 == table.total && log2 table.total == table.log2total && listed + 1 == table.total &&
    table.frequencies.all (verifyRow table.total)

/-! ## What a row should be -/

/-- The characters that have been seen, in order. -/
def symbols (c : TextStatsCollector) : List Nat := (List.range 256).filter c.seen

/-- How often the character of a symbol has been seen behind that of another. -/
def follows (c : TextStatsCollector) (ii jj : Nat) : Nat :=
  c.frequencies ((symbols c).getD ii 0) ((symbols c).getD jj 0)

/-- The part of the 16 bits that the first symbols have. All of them together have none. -/
def share (freq : Nat → Nat) (total jj : Nat) : Nat :=
  let work := ∑ i ∈ Finset.range (jj + 1), freq i
  let smax := ∑ i ∈ Finset.range total, freq i
  if smax = 0 then (jj + 1) * 2 ^ 16 / total else if work = smax then 0 else work * 2 ^ 16 / smax

/-- The least strictly increasing numbers from 1 on that are not less than these. -/
def needed (f : Nat → Nat) (jj : Nat) : Nat :=
  max (jj + 1) ((Finset.range (jj + 1)).sup fun i => f i + (jj - i))

/-- A row whose last entry is too much by no more than its first step to 256 or more is high. -/
def Borrows (f : Nat → Nat) (total : Nat) : Prop :=
  ∀ jj, jj + 1 < total - 1 → needed f jj < 256 → 256 ≤ needed f (jj + 1) →
    needed f jj + (needed f (total - 2) - 65535) < needed f (jj + 1)

/-- What is promised of a row. -/
structure RowRight (c : TextStatsCollector) (table : TableFormat) (ii : Nat) : Prop where
  row : ∃ row, table.frequencies[ii]? = some row ∧ StrictRow c.total row.base ∧
    verifyRow c.total row = true
  interval : ∀ ch < 256, c.seen ch = true → ∃ symbol low range,
    encoderGetTableSymbol table ii ch = some (symbol, low, range) ∧ 0 < range

end Model

section Spec

variable {c : TextStatsCollector}

/-! ## Runs of `Tally` -/

/-- What holds between two calls. -/
structure Tallied (c : TextStatsCollector) : Prop where
  frequencies_lt : ∀ a b, c.frequencies a b < 2 ^ 24
  last_lt : c.last < 256
  seen_zero : c.seen 0 = true
  seen_lt : ∀ a, c.seen a = true → a < 256
  total : c.total = (symbols c).length

theorem new_frequencies_le (a b : Nat) : TextStatsCollector.new.frequencies a b ≤ 1 := by
  show Function.update (fun _ _ => 0) 0 (Function.update (fun _ => 0) 0 1) a b ≤ 1
  by_cases ha : a = 0
  · subst ha
    rw [Function.update_self]
    by_cases hb : b = 0
    · subst hb
      rw [Function.update_self]
    · rw [Function.update_of_ne hb]
      exact Nat.zero_le 1
  · rw [Function.update_of_ne ha]
    exact Nat.zero_le 1

theorem tallied_new : Tallied .new := by
  refine ⟨fun a b => (new_frequencies_le a b).trans_lt (by decide), by decide, rfl, fun a ha => ?_,
    by decide⟩
  · have hnew : Function.update (fun _ => false) 0 true a = true := ha
    by_contra hge
    rw [Function.update_of_ne (by omega)] at hnew
    cases hnew

/-- One more character. -/
theorem countP_update {p : Nat → Bool} {x n : Nat} (hx : x < n) (hp : p x = false) :
    (List.range n).countP (Function.update p x true) = (List.range n).countP p + 1 := by
  have hsplit : List.range n = List.range x ++ x :: List.range' (x + 1) (n - (x + 1)) := by
    rw [← List.range'_succ, ← Nat.zero_add x, List.range_eq_range', List.range_eq_range', Nat.zero_add,
      show n - (x + 1) + 1 = n - x by omega]
    have := List.range'_append_1 (s := 0) (m := x) (n := n - x)
    rw [Nat.zero_add] at this
    rw [this]
    congr 1
    omega
  have hsame : ∀ l : List Nat, x ∉ l → l.countP (Function.update p x true) = l.countP p := by
    refine fun l hl => List.countP_congr fun y hy => ?_
    have hne : y ≠ x := fun he => hl (he ▸ hy)
    rw [Function.update_of_ne hne]
  rw [hsplit, List.countP_append, List.countP_append, List.countP_cons, List.countP_cons,
    hsame _ (by simp), hsame _ (by rw [List.mem_range'_1]; omega), Function.update_self, hp]
  rfl

theorem Tallied.tally (h : Tallied c) (x : u8) : Tallied (tally c x) := by
  have hx := x.isLt
  have hcounted : ∀ b, Function.update (c.frequencies c.last) x.toNat
      (c.frequencies c.last x.toNat + 1) b ≤ 2 ^ 24 := by
    intro b
    by_cases hb : b = x.toNat
    · subst hb
      rw [Function.update_self]
      exact h.frequencies_lt _ _
    · rw [Function.update_of_ne hb]
      exact (h.frequencies_lt _ _).le
  refine ⟨fun a b => ?_, hx, ?_, fun a ha => ?_, ?_⟩
  · dsimp only [TextStats.tally]
    by_cases ha : a = c.last
    · subst ha
      rw [Function.update_self]
      have hle := hcounted b
      split
      · dsimp only
        split
        · rw [Nat.shiftRight_eq_div_pow]
          omega
        · omega
      · next hfew =>
        rw [ge_iff_le, Nat.not_le] at hfew
        by_cases hb : b = x.toNat
        · subst hb
          rw [Function.update_self]
          exact hfew
        · rw [Function.update_of_ne hb]
          exact h.frequencies_lt _ _
    · rw [Function.update_of_ne ha]
      exact h.frequencies_lt a b
  · dsimp only [TextStats.tally]
    by_cases h0 : 0 = x.toNat
    · rw [← h0, Function.update_self]
    · rw [Function.update_of_ne h0]
      exact h.seen_zero
  · dsimp only [TextStats.tally] at ha
    by_cases hax : a = x.toNat
    · omega
    · rw [Function.update_of_ne hax] at ha
      exact h.seen_lt a ha
  · dsimp only [TextStats.tally]
    by_cases hseen : c.seen x.toNat = true
    · have hsame : Function.update c.seen x.toNat true = c.seen := by
        rw [← hseen, Function.update_eq_self]
      rw [hseen, symbols, hsame]
      exact h.total
    · rw [Bool.not_eq_true] at hseen
      rw [hseen, h.total, symbols, symbols, ← List.countP_eq_length_filter,
        ← List.countP_eq_length_filter, countP_update hx hseen]
      rfl

theorem tallied_run (msg : List u8) (h : Tallied c) : Tallied (msg.foldl tally c) := by
  induction msg generalizing c with
  | nil => exact h
  | cons x msg ih => exact ih (h.tally x)

/-! ## The index -/

theorem writeIndex_spec (c : TextStatsCollector) (n : Nat) :
    let s := writeIndex c n
    s.jj = ((List.range n).filter c.seen).length ∧
      (∀ j, s.index2char j = ((List.range n).filter c.seen).getD j 0) ∧
      (∀ ch, c.seen ch = true → ch < n →
        s.char2index ch < s.jj ∧ s.index2char (s.char2index ch) = ch) ∧
      ∀ ch, c.seen ch = false → s.char2index ch = 0 := by
  induction n with
  | zero =>
    exact ⟨rfl, fun _ => rfl, fun _ _ h => absurd h (Nat.not_lt_zero _), fun _ _ => rfl⟩
  | succ n ih =>
    obtain ⟨hjj, hindex, hseen, hunseen⟩ := ih
    dsimp only [writeIndex]
    rw [List.range_succ, List.filter_append]
    by_cases hn : c.seen n = true
    · rw [if_pos hn, List.filter_cons_of_pos hn, List.filter_nil]
      refine ⟨by rw [List.length_append, hjj]; rfl, fun j => ?_, fun ch hch hlt => ?_, fun ch hch => ?_⟩
      · dsimp only
        rcases Nat.lt_trichotomy j (writeIndex c n).jj with hlt | rfl | hgt
        · rw [Function.update_of_ne hlt.ne, hindex, List.getD_append _ _ _ _ (hjj ▸ hlt)]
        · rw [Function.update_self, List.getD_append_right _ _ _ _ hjj.ge, hjj, Nat.sub_self]
          rfl
        · rw [Function.update_of_ne hgt.ne', hindex, List.getD_eq_default _ _ (by omega),
            List.getD_eq_default _ _ (by rw [List.length_append, List.length_singleton]; omega)]
      · dsimp only
        by_cases he : ch = n
        · subst he
          rw [Function.update_self, Function.update_self]
          exact ⟨Nat.lt_succ_self _, rfl⟩
        · obtain ⟨hin, hback⟩ := hseen ch hch (by omega)
          rw [Function.update_of_ne he, Function.update_of_ne hin.ne]
          exact ⟨hin.trans (Nat.lt_succ_self _), hback⟩
      · dsimp only
        have hne : ch ≠ n := fun he => by
          rw [he, hn] at hch
          cases hch
        rw [Function.update_of_ne hne]
        exact hunseen ch hch
    · rw [if_neg hn, List.filter_cons_of_neg hn, List.filter_nil, List.append_nil]
      refine ⟨hjj, hindex, fun ch hch hlt => ?_, fun ch hch => ?_⟩
      · dsimp only
        have hne : ch ≠ n := fun he => hn (he ▸ hch)
        rw [Function.update_of_ne hne]
        exact hseen ch hch (by omega)
      · dsimp only
        by_cases he : ch = n
        · rw [he, Function.update_self]
        · rw [Function.update_of_ne he]
          exact hunseen ch hch

theorem following_eq (c : TextStatsCollector) : following c = follows c := by
  obtain ⟨-, hindex, -⟩ := writeIndex_spec c 256
  funext ii jj
  unfold following follows
  rw [hindex, hindex]
  rfl

theorem Tallied.total_le (h : Tallied c) : c.total ≤ 256 := by
  rw [h.total]
  exact (List.length_filter_le _ _).trans (List.length_range).le

theorem Tallied.char2index_lt (h : Tallied c) {ch : Nat} (hlt : ch < 256) (hch : c.seen ch = true) :
    (writeIndex c 256).char2index ch < c.total := by
  obtain ⟨hjj, -, hseen, -⟩ := writeIndex_spec c 256
  rw [h.total]
  exact (hseen ch hch hlt).1.trans_le hjj.le

/-! ## Scaling -/

section Scaling

variable {freq : Nat → Nat} {total : Nat}

theorem sum_le (hfreq : ∀ j, freq j < 2 ^ 24) (n : Nat) :
    ∑ i ∈ Finset.range n, freq i ≤ n * (2 ^ 24 - 1) := by
  have := Finset.sum_le_card_nsmul (Finset.range n) freq (2 ^ 24 - 1) fun i _ => Nat.le_pred_of_lt (hfreq i)
  rwa [Finset.card_range, smul_eq_mul] at this

/-- The sums do not overflow. -/
theorem cumulative_eq (hfreq : ∀ j, freq j < 2 ^ 24) {n : Nat} (hn : n ≤ 256) :
    cumulative freq n = ∑ i ∈ Finset.range n, freq i := by
  induction n with
  | zero => rfl
  | succ n ih =>
    have hle := sum_le hfreq (n + 1)
    rw [Finset.sum_range_succ] at hle ⊢
    rw [cumulative, ih (by omega), Nat.mod_eq_of_lt (by omega)]

theorem shift_div (w m : Nat) : w <<< 32 / m / 2 ^ 16 = w * 2 ^ 16 / m := by
  rw [Nat.shiftLeft_eq, Nat.div_div_eq_div_mul, show w * 2 ^ 32 = w * 2 ^ 16 * 2 ^ 16 by omega,
    Nat.mul_div_mul_right _ _ (Nat.two_pow_pos 16)]

/-- What is scaled fits 32 bits, as long as it is not the whole. -/
theorem scaled_lt {w m : Nat} (hw : w < m) : w <<< 32 / m < 2 ^ 32 := by
  rw [Nat.shiftLeft_eq]
  refine Nat.div_lt_of_lt_mul ?_
  rw [Nat.mul_comm w, Nat.mul_comm m]
  exact Nat.mul_lt_mul_of_pos_left hw (Nat.two_pow_pos 32)

theorem scale_eq (hfreq : ∀ j, freq j < 2 ^ 24) (htotal : total ≤ 256) {jj : Nat} (hjj : jj + 1 < total) :
    scale freq total jj = share freq total jj := by
  unfold scale share
  rw [cumulative_eq hfreq (by omega), cumulative_eq hfreq htotal]
  dsimp only
  set work := ∑ i ∈ Finset.range (jj + 1), freq i with hwork
  set smax := ∑ i ∈ Finset.range total, freq i with hsmax
  have hle : work ≤ smax := Finset.sum_le_sum_of_subset (Finset.range_subset_range.mpr hjj.le)
  by_cases hzero : smax = 0
  · rw [if_neg (not_not.mpr hzero), if_pos hzero, Nat.mod_eq_of_lt (scaled_lt hjj),
      Nat.shiftRight_eq_div_pow, shift_div]
  · have hpos : 0 < smax := Nat.pos_of_ne_zero hzero
    rw [if_pos hzero, if_neg hzero]
    by_cases hwhole : work = smax
    · rw [if_pos hwhole, hwhole, Nat.shiftLeft_eq, Nat.mul_div_cancel_left _ hpos]
      rfl
    · rw [if_neg hwhole, Nat.mod_eq_of_lt (scaled_lt (by omega)), Nat.shiftRight_eq_div_pow,
        shift_div]

theorem scale_lt (jj : Nat) : scale freq total jj < 2 ^ 16 := by
  unfold scale
  dsimp only
  split <;> exact (Nat.shiftRight_eq_div_pow _ _).trans_lt (by omega)

end Scaling

/-! ## The row before the correction -/

section Needed

variable {f : Nat → Nat}

theorem needed_zero : needed f 0 = max 1 (f 0) := by
  unfold needed
  rw [Finset.range_one, Finset.sup_singleton]
  rfl

theorem needed_succ (jj : Nat) : needed f (jj + 1) = max (needed f jj + 1) (f (jj + 1)) := by
  have hmore : ((Finset.range (jj + 1)).sup fun i => f i + (jj + 1 - i)) =
      ((Finset.range (jj + 1)).sup fun i => f i + (jj - i)) + 1 := by
    refine le_antisymm (Finset.sup_le fun i hi => ?_) ?_
    · have hle := Finset.le_sup (f := fun i => f i + (jj - i)) hi
      have := Finset.mem_range.mp hi
      omega
    · obtain ⟨i, hi, hsup⟩ := Finset.exists_mem_eq_sup (Finset.range (jj + 1)) ⟨0, by simp⟩
        fun i => f i + (jj - i)
      have hle := Finset.le_sup (f := fun i => f i + (jj + 1 - i)) hi
      have := Finset.mem_range.mp hi
      rw [hsup]
      omega
  unfold needed
  rw [Finset.range_add_one (n := jj + 1), Finset.sup_insert, hmore, Nat.sub_self, Nat.add_zero]
  omega

theorem needed_congr {g : Nat → Nat} {jj : Nat} (h : ∀ i ≤ jj, f i = g i) : needed f jj = needed g jj := by
  unfold needed
  congr 1
  refine Finset.sup_congr rfl fun i hi => ?_
  rw [h i (Nat.le_of_lt_succ (Finset.mem_range.mp hi))]

theorem needed_lt (jj : Nat) : needed f jj < needed f (jj + 1) := by
  rw [needed_succ]
  omega

theorem needed_strictMono : StrictMono (needed f) := strictMono_nat_of_lt_succ needed_lt

theorem needed_pos (jj : Nat) : 0 < needed f jj := by
  unfold needed
  omega

theorem needed_le {m : Nat} (hf : ∀ i, f i ≤ m) (hm : 0 < m) (jj : Nat) : needed f jj ≤ m + jj := by
  unfold needed
  refine max_le (by omega) (Finset.sup_le fun i _ => ?_)
  have := hf i
  omega

theorem forced (a b : Nat) : (if a ≥ b then a + 1 else b) = max (a + 1) b := by
  split <;> omega

/-- The loop computes the least increasing numbers. -/
theorem normalize_spec (n : Nat) :
    (normalize f (n + 1)).1 = needed f n ∧
      (normalize f (n + 1)).2 = (List.range (n + 1)).map fun jj => needed f jj % 2 ^ 16 := by
  induction n with
  | zero =>
    rw [List.range_one, List.map_singleton, needed_zero]
    rw [normalize, normalize]
    dsimp only
    rw [forced]
    exact ⟨rfl, rfl⟩
  | succ n ih =>
    obtain ⟨hlast, hlist⟩ := ih
    have hnew : (if (normalize f (n + 1)).1 ≥ f (n + 1) then (normalize f (n + 1)).1 + 1 else f (n + 1)) =
        needed f (n + 1) := by
      rw [hlast, needed_succ, forced]
    rw [normalize]
    dsimp only
    rw [hnew, hlist]
    refine ⟨rfl, ?_⟩
    rw [List.range_succ (n := n + 1), List.map_append]
    rfl

/-! ## The correction -/

theorem borrow_length (count : Nat) (l : List Nat) : ∀ cumsub, (borrow count cumsub l).length = l.length := by
  induction l with
  | nil => exact fun _ => rfl
  | cons a l ih => exact fun cumsub => congrArg Nat.succ (ih _)

/-- From the first entry on that is 256 or more, `count` is taken away. -/
theorem borrow_getElem? (count : Nat) (l : List Nat) (hl : ∀ f ∈ l, f < 2 ^ 16) :
    ∀ (cumsub jj : Nat), (borrow count cumsub l)[jj]? = l[jj]?.map fun f =>
      (f + 2 ^ 32 - if (l.take (jj + 1)).any fun f => decide (256 ≤ f) then count else cumsub) % 2 ^ 16 := by
  induction l with
  | nil => exact fun _ _ => rfl
  | cons a l ih =>
    intro cumsub jj
    have ha := hl a List.mem_cons_self
    have hslack : (a + 2 ^ 32 - 0) % 2 ^ 32 = a := by omega
    rw [borrow, hslack, List.take_succ_cons, List.any_cons]
    cases jj with
    | zero =>
      rw [List.take_zero, List.any_nil, Bool.or_false, List.getElem?_cons_zero, List.getElem?_cons_zero]
      simp only [decide_eq_true_eq, ge_iff_le, Option.map_some]
    | succ jj =>
      rw [List.getElem?_cons_succ, List.getElem?_cons_succ, ih fun f hf => hl f (List.mem_cons_of_mem _ hf)]
      cases (l.take (jj + 1)).any fun f => decide (256 ≤ f) with
      | true => rw [Bool.or_true]; rfl
      | false => simp only [Bool.or_false, decide_eq_true_eq, ge_iff_le, if_neg Bool.false_ne_true]

/-- An entry of the row, after the correction if there is one. -/
def corrected (f : Nat → Nat) (total jj : Nat) : Nat :=
  if 256 ≤ needed f jj then needed f jj - (needed f (total - 2) - 65535) else needed f jj

/-- The first entry to get to 256 is not too large, so that it is seen there. -/
theorem any_large (hf : ∀ j, f j < 2 ^ 16) (jj : Nat) :
    ((List.range (jj + 1)).map fun i => needed f i % 2 ^ 16).any (fun f => decide (256 ≤ f)) =
      decide (256 ≤ needed f jj) := by
  refine Bool.eq_iff_iff.mpr ?_
  simp only [List.any_map, List.any_eq_true, List.mem_range, Function.comp_apply, decide_eq_true_eq]
  constructor
  · rintro ⟨i, hi, hlarge⟩
    have hmono : needed f i ≤ needed f jj := needed_strictMono.monotone (Nat.le_of_lt_succ hi)
    exact (hlarge.trans (Nat.mod_le _ _)).trans hmono
  · intro hlarge
    have hex : ∃ i, 256 ≤ needed f i := ⟨jj, hlarge⟩
    have hfirst := Nat.find_spec hex
    have hle := Nat.find_min' hex hlarge
    refine ⟨Nat.find hex, Nat.lt_succ_of_le hle, ?_⟩
    have hfit : needed f (Nat.find hex) < 2 ^ 16 := by
      cases hfind : Nat.find hex with
      | zero =>
        rw [needed_zero]
        have := hf 0
        omega
      | succ i =>
        have hbefore : needed f i < 256 := Nat.not_le.mp (Nat.find_min hex (by omega))
        rw [needed_succ]
        have := hf (i + 1)
        omega
    rwa [Nat.mod_eq_of_lt hfit]

theorem symbolFreqs_eq (hf : ∀ j, f j < 2 ^ 16) {total : Nat} (htotal : 2 ≤ total) (hlarge : total ≤ 256) :
    symbolFreqs f total = (List.range (total - 1)).map (corrected f total) := by
  obtain ⟨n, rfl⟩ : ∃ n, total = n + 2 := ⟨total - 2, by omega⟩
  obtain ⟨hlast, hlist⟩ := normalize_spec (f := f) n
  have hmost : needed f n ≤ 2 ^ 16 - 1 + n := needed_le (fun i => Nat.le_pred_of_lt (hf i)) (by decide) n
  have hle : ∀ jj < n + 1, needed f jj ≤ needed f n := fun jj hjj =>
    needed_strictMono.monotone (Nat.le_of_lt_succ hjj)
  unfold symbolFreqs
  rw [show n + 2 - 1 = n + 1 from rfl]
  dsimp only
  rw [hlast, hlist]
  refine List.ext_getElem? fun jj => ?_
  by_cases hjj : jj < n + 1
  · have hentry : ((List.range (n + 1)).map (corrected f (n + 2)))[jj]? = some (corrected f (n + 2) jj) := by
      rw [List.getElem?_map, List.getElem?_range hjj]
      rfl
    have hstored : ((List.range (n + 1)).map fun jj => needed f jj % 2 ^ 16)[jj]? =
        some (needed f jj % 2 ^ 16) := by
      rw [List.getElem?_map, List.getElem?_range hjj]
      rfl
    have hjle := hle jj hjj
    rw [hentry]
    unfold corrected
    rw [show n + 2 - 2 = n from rfl]
    split
    · next hover =>
      have htake : ((List.range (n + 1)).map fun jj => needed f jj % 2 ^ 16).take (jj + 1) =
          (List.range (jj + 1)).map fun jj => needed f jj % 2 ^ 16 := by
        rw [← List.map_take, List.take_range, Nat.min_eq_left hjj]
      rw [borrow_getElem? _ _ (fun v hv => ?_), hstored, htake, any_large hf, Option.map_some]
      · congr 1
        simp only [decide_eq_true_eq]
        split <;> omega
      · obtain ⟨i, -, rfl⟩ := List.mem_map.mp hv
        exact Nat.mod_lt _ (Nat.two_pow_pos 16)
    · next hfits =>
      rw [hstored]
      congr 1
      split <;> omega
  · have hlen : ∀ g : Nat → Nat, ((List.range (n + 1)).map g).length ≤ jj := fun g => by
      rw [List.length_map, List.length_range]
      omega
    rw [List.getElem?_eq_none (hlen _)]
    split
    · rw [List.getElem?_eq_none]
      rw [borrow_length]
      exact hlen _
    · rw [List.getElem?_eq_none (hlen _)]

/-- The row is as it should be exactly if the step to 256 is high enough. -/
theorem strictRow_iff (hf : ∀ j, f j < 2 ^ 16) {total : Nat} (htotal : 2 ≤ total) (hlarge : total ≤ 256) :
    StrictRow total (symbolFreqs f total) ↔ Borrows f total := by
  have hmost : needed f (total - 2) ≤ 2 ^ 16 - 1 + (total - 2) :=
    needed_le (fun i => Nat.le_pred_of_lt (hf i)) (by decide) _
  have hlen : ((List.range (total - 1)).map (corrected f total)).length = total - 1 := by simp
  rw [symbolFreqs_eq hf htotal hlarge]
  constructor
  · intro h jj hjj hbefore hafter
    have hstep := h.lt_getElem (Nat.lt_add_one jj) (by rw [hlen]; exact hjj)
    simp only [List.getElem_map, List.getElem_range] at hstep
    unfold corrected at hstep
    rw [if_neg (Nat.not_le.mpr hbefore), if_pos hafter] at hstep
    omega
  · intro h
    have hmem : ∀ v ∈ (List.range (total - 1)).map (corrected f total), 0 < v ∧ v < 2 ^ 16 := by
      intro v hv
      obtain ⟨jj, hjj, rfl⟩ := List.mem_map.mp hv
      have hle : needed f jj ≤ needed f (total - 2) :=
        needed_strictMono.monotone (by have := List.mem_range.mp hjj; omega)
      have hpos := needed_pos (f := f) jj
      unfold corrected
      split <;> omega
    refine ⟨hlen, ?_, fun v hv => (hmem v hv).1, fun v hv => (hmem v hv).2⟩
    have hstep : ∀ jj, jj + 1 < total - 1 → corrected f total jj < corrected f total (jj + 1) := by
      intro jj hjj
      have hlt := needed_lt (f := f) jj
      have hgap := h jj hjj
      unfold corrected
      split <;> split <;> omega
    have hall : ∀ i j, i < j → j < total - 1 → corrected f total i < corrected f total j := by
      intro i j hij
      induction j, hij using Nat.le_induction with
      | base => exact hstep i
      | succ j _ ih => exact fun hj => (ih (by omega)).trans (hstep j hj)
    rw [List.pairwise_iff_getElem]
    intro i j hi hj hij
    simp only [List.getElem_map, List.getElem_range]
    exact hall i j hij (hlen ▸ hj)

end Needed

/-! ## The table -/

theorem increasing_iff (base : List Nat) :
    ∀ last, increasing last base = true ↔ (∀ v ∈ base, last < v) ∧ base.Pairwise (· < ·) := by
  induction base with
  | nil => exact fun last => ⟨fun _ => ⟨nofun, List.Pairwise.nil⟩, fun _ => rfl⟩
  | cons x base ih =>
    intro last
    rw [increasing, List.pairwise_cons]
    split
    · next hge => exact ⟨nofun, fun h => absurd (h.1 x List.mem_cons_self) (Nat.not_lt.mpr hge)⟩
    · next hlt =>
      rw [ih x]
      refine ⟨fun h => ⟨fun v hv => ?_, h⟩, fun h => h.2⟩
      rcases List.mem_cons.mp hv with rfl | hv
      · exact Nat.not_le.mp hlt
      · exact (Nat.not_le.mp hlt).trans (h.1 v hv)

/-- A strictly increasing row with its look-up tables passes the checks. -/
theorem verifyRow_strict {total : Nat} {base : List Nat} (h : StrictRow total base) (htotal : 2 ≤ total)
    (stray : Nat) : verifyRow total ⟨writeLut base stray total, base⟩ = true := by
  obtain ⟨-, hentries, -⟩ := lutLoop_spec h htotal stray SYMBOL_LUT_BYTES
  have hlen := h.length
  unfold verifyRow
  rw [(increasing_iff base 0).mpr ⟨h.pos, h.strict⟩, Bool.true_and, List.all_eq_true]
  intro e he
  obtain ⟨jj, hjj, rfl⟩ := List.getElem_of_mem he
  obtain ⟨low, high, heq, hle, hreached, -⟩ := (hentries jj hjj).bounds
  have hhigh := hreached.le
  have hentry : (writeLut base stray total)[jj] = (low - 1, high - 1) := heq
  rw [hentry]
  simp only [Bool.not_eq_true', Bool.or_eq_false_iff, decide_eq_false_iff_not]
  omega

section Table

variable (murmurHash : TableFormat → Nat) (log2 : Nat → Nat) (stray : Nat → Nat)

theorem generate_row {ii : Nat} (hii : ii < c.total) :
    (generateMinimalStaticTable murmurHash log2 stray c).frequencies[ii]? =
      some (generateRow c (stray ii) ii) := by
  dsimp only [generateMinimalStaticTable]
  rw [List.getElem?_map, List.getElem?_range hii]
  rfl

/-- What follows from a row of strictly increasing entries. -/
theorem rowRight_iff (h : Tallied c) (htotal : 2 ≤ c.total) {ii : Nat} (hii : ii < c.total) :
    RowRight c (generateMinimalStaticTable murmurHash log2 stray c) ii ↔
      Borrows (share (follows c ii) c.total) c.total := by
  set table := generateMinimalStaticTable murmurHash log2 stray c with htable
  have hrow : table.frequencies[ii]? = some (generateRow c (stray ii) ii) :=
    generate_row murmurHash log2 stray hii
  have hlarge := h.total_le
  have hscale : ∀ jj, jj < c.total - 1 →
      scale (following c ii) c.total jj = share (follows c ii) c.total jj := fun jj hjj => by
    rw [following_eq]
    exact scale_eq (fun _ => h.frequencies_lt _ _) hlarge (by omega)
  have hneeded : ∀ jj, jj < c.total - 1 →
      needed (scale (following c ii) c.total) jj = needed (share (follows c ii) c.total) jj := by
    exact fun jj hjj => needed_congr fun i hi => hscale i (by omega)
  have hborrows : Borrows (scale (following c ii) c.total) c.total ↔
      Borrows (share (follows c ii) c.total) c.total := by
    unfold Borrows
    refine forall_congr' fun jj => forall_congr' fun hjj => ?_
    rw [hneeded jj (by omega), hneeded (jj + 1) hjj, hneeded (c.total - 2) (by omega)]
  rw [← hborrows, ← strictRow_iff scale_lt htotal hlarge]
  constructor
  · rintro ⟨⟨row, he, hstrict, -⟩, -⟩
    rw [hrow] at he
    obtain rfl := Option.some.inj he
    exact hstrict
  · intro hstrict
    refine ⟨⟨_, hrow, hstrict, verifyRow_strict hstrict htotal _⟩, fun ch hch hseen => ?_⟩
    have hin : table.char2index ch < table.total := h.char2index_lt hch hseen
    refine ⟨_, _, _, encoder_spec htotal hrow hstrict hin, Nat.sub_pos_of_lt ?_⟩
    have hlen : (generateRow c (stray ii) ii).base.length = c.total - 1 := hstrict.length
    have hin' : table.char2index ch < c.total := hin
    exact hstrict.edge_lt (Nat.lt_succ_self _) (show _ ≤ (generateRow c (stray ii) ii).base.length + 1 by omega)

/-- **Any text with a byte that is not the terminator**: the rows of the table are right exactly if, in
each of them, what is too much at the end is less than the step to 256. -/
theorem generated_rows (msg : List u8) (htotal : 2 ≤ (msg.foldl tally .new).total) :
    let c := msg.foldl tally .new
    (∀ ii < c.total, RowRight c (generateMinimalStaticTable murmurHash log2 stray c) ii) ↔
      ∀ ii < c.total, Borrows (share (follows c ii) c.total) c.total := by
  have h := tallied_run msg tallied_new
  exact forall_congr' fun ii => forall_congr' fun hii =>
    rowRight_iff murmurHash log2 stray h htotal hii

/-- Of the characters that have been seen, all but the terminator have an index other than 0. -/
theorem Tallied.count_char2index (h : Tallied c) :
    (List.range 256).countP (fun ii => (writeIndex c 256).char2index ii != 0) + 1 = c.total := by
  obtain ⟨hjj, hindex, hseen, hunseen⟩ := writeIndex_spec c 256
  have hfirst : (writeIndex c 256).index2char 0 = 0 := by
    rw [hindex]
    have hrange : List.range 256 = 0 :: List.range' 1 255 := by
      rw [List.range_eq_range', List.range'_succ]
    rw [hrange, List.filter_cons_of_pos h.seen_zero]
    rfl
  have hnodup : ((List.range 256).filter c.seen).Nodup := List.nodup_range.filter _
  have hzero : (writeIndex c 256).char2index 0 = 0 := by
    obtain ⟨hlt, hback⟩ := hseen 0 h.seen_zero (by decide)
    rw [hjj] at hlt
    rw [hindex, List.getD_eq_getElem _ _ hlt] at hback
    rw [hindex, List.getD_eq_getElem _ _ (Nat.zero_lt_of_lt hlt)] at hfirst
    exact (hnodup.getElem_inj_iff).mp (hback.trans hfirst.symm)
  rw [h.total, symbols, ← List.countP_eq_length_filter, ← countP_update (x := 0) (by decide) (by simp [hzero])]
  refine List.countP_congr fun ch hch => ?_
  by_cases hch0 : ch = 0
  · subst hch0
    rw [Function.update_self, h.seen_zero]
  · rw [Function.update_of_ne hch0, bne_iff_ne]
    cases hs : c.seen ch with
    | false => simp [hunseen ch hs]
    | true =>
      refine ⟨fun _ => rfl, fun _ hi => hch0 ?_⟩
      have hback := (hseen ch hs (List.mem_range.mp hch)).2
      rw [hi, hfirst] at hback
      exact hback.symm

/-- All entries of `index2char` but the first are other characters, up to the total. -/
theorem Tallied.count_index2char (h : Tallied c) :
    (List.range 256).countP (fun ii => (writeIndex c 256).index2char ii != 0) + 1 = c.total := by
  obtain ⟨hjj, hindex, -, -⟩ := writeIndex_spec c 256
  have hlarge := h.total_le
  have hrange : List.range 256 = 0 :: List.range' 1 255 := by
    rw [List.range_eq_range', List.range'_succ]
  have hcons : symbols c = 0 :: (List.range' 1 255).filter c.seen := by
    rw [symbols, hrange, List.filter_cons_of_pos h.seen_zero]
  have hzero : (writeIndex c 256).index2char 0 = 0 := by
    rw [hindex]
    exact congrArg (fun l : List Nat => l.getD 0 0) hcons
  rw [← countP_update (x := 0) (by decide) (by simp [hzero])]
  have hall : ∀ n ≤ 256, (List.range n).countP (fun ii => decide (ii < c.total)) = min n c.total := by
    intro n hn
    induction n with
    | zero => exact (Nat.zero_min _).symm
    | succ n ih =>
      rw [List.range_succ, List.countP_append, ih (by omega), List.countP_singleton]
      simp only [decide_eq_true_eq]
      split <;> omega
  rw [← Nat.min_eq_right hlarge, ← hall 256 (le_refl _)]
  refine List.countP_congr fun ii hii => ?_
  rw [decide_eq_true_iff]
  by_cases h0 : ii = 0
  · subst h0
    rw [Function.update_self, h.total, hcons]
    exact ⟨fun _ => Nat.succ_pos _, fun _ => rfl⟩
  · rw [Function.update_of_ne h0, bne_iff_ne, hindex]
    have hlist : (List.range 256).filter c.seen = symbols c := rfl
    rw [hlist]
    constructor
    · intro hne
      by_contra hge
      exact hne (List.getD_eq_default _ _ (by rw [← h.total]; omega))
    · intro hlt
      rw [h.total] at hlt
      obtain ⟨i, rfl⟩ := Nat.exists_eq_succ_of_ne_zero h0
      rw [hcons] at hlt ⊢
      have hi : i < ((List.range' 1 255).filter c.seen).length := Nat.lt_of_succ_lt_succ hlt
      rw [List.getD_cons_succ, List.getD_eq_getElem _ _ hi]
      have hmem := List.mem_of_mem_filter (List.getElem_mem hi)
      have := (List.mem_range'_1.mp hmem).1
      omega

/-- The table of a text passes `VerifyTableIntegrity` exactly if its rows do. -/
theorem verify_generated (h : Tallied c) :
    verifyTableIntegrity murmurHash log2 (generateMinimalStaticTable murmurHash log2 stray c) = true ↔
      ∀ ii < c.total, verifyRow c.total (generateRow c (stray ii) ii) = true := by
  obtain ⟨hjj, hindex, hseen, hunseen⟩ := writeIndex_spec c 256
  have hlarge := h.total_le
  have hback : ∀ ii < 256, (writeIndex c 256).char2index ii = 0 ∨
      (writeIndex c 256).index2char ((writeIndex c 256).char2index ii) = ii := by
    intro ii hii
    cases hs : c.seen ii with
    | false => exact .inl (hunseen ii hs)
    | true => exact .inr (hseen ii hs hii).2
  unfold verifyTableIntegrity generateMinimalStaticTable
  dsimp only
  rw [h.count_char2index, h.count_index2char]
  simp only [beq_self_eq_true, Bool.true_and, Bool.and_true, Bool.and_eq_true, Bool.not_eq_true',
    decide_eq_false_iff_not, List.all_eq_true, List.mem_range, Bool.or_eq_true, beq_iff_eq, List.mem_map]
  constructor
  · rintro ⟨-, hrows⟩ ii hii
    exact hrows _ ⟨ii, hii, rfl⟩
  · refine fun hrows => ⟨⟨by omega, hback⟩, ?_⟩
    rintro _ ⟨ii, hii, rfl⟩
    exact hrows ii hii

end Table

/-! ## Counts -/

theorem frequencies_tally {x : u8} (hfew : c.frequencies c.last x.toNat + 1 < 2 ^ 24) (a b : Nat) :
    (tally c x).frequencies a b = c.frequencies a b + if (c.last, x.toNat) = (a, b) then 1 else 0 := by
  have hbelow : ¬c.frequencies c.last x.toNat + 1 ≥ 0x01000000 := Nat.not_le.mpr hfew
  dsimp only [tally]
  rw [if_neg hbelow]
  by_cases ha : a = c.last
  · subst ha
    rw [Function.update_self]
    by_cases hb : b = x.toNat
    · subst hb
      rw [Function.update_self, if_pos rfl]
    · rw [Function.update_of_ne hb, if_neg fun he => hb (Prod.mk.inj he).2.symm]
      rfl
  · rw [Function.update_of_ne ha, if_neg fun he => ha (Prod.mk.inj he).1.symm]
    rfl

/-- Short texts are counted: which byte follows which, from the terminator on. -/
theorem frequencies_run (msg : List u8) : ∀ c : TextStatsCollector,
    (∀ a b, c.frequencies a b + msg.length < 2 ^ 24) → ∀ a b, (msg.foldl tally c).frequencies a b =
      c.frequencies a b + ((c.last :: msg.map (·.toNat)).zip (msg.map (·.toNat))).count (a, b) := by
  induction msg with
  | nil => exact fun c _ a b => rfl
  | cons x msg ih =>
    intro c hfew a b
    rw [List.length_cons] at hfew
    have hstep := frequencies_tally (c := c) (x := x) (by have := hfew c.last x.toNat; omega)
    have hrest := ih (tally c x) (fun a b => by rw [hstep]; have := hfew a b; split <;> omega) a b
    rw [List.foldl_cons, hrest, hstep, List.map_cons, List.zip_cons_cons, List.count_cons, Nat.add_assoc]
    congr 1
    rw [Nat.add_comm]
    simp only [beq_iff_eq]
    rfl

theorem seen_run (msg : List u8) : ∀ c : TextStatsCollector, ∀ a, (msg.foldl tally c).seen a =
    (c.seen a || (msg.map (·.toNat)).contains a) := by
  induction msg with
  | nil => exact fun c a => (Bool.or_false _).symm
  | cons x msg ih =>
    intro c a
    rw [List.foldl_cons, ih, List.map_cons, List.contains_cons, ← Bool.or_assoc]
    congr 1
    dsimp only [tally]
    by_cases ha : a = x.toNat
    · rw [ha, Function.update_self, beq_self_eq_true, Bool.or_true]
    · rw [Function.update_of_ne ha, beq_false_of_ne ha, Bool.or_false]

theorem share_congr {f g : Nat → Nat} {total jj : Nat} (hjj : jj < total) (h : ∀ i < total, f i = g i) :
    share f total jj = share g total jj := by
  have hsum : ∀ n ≤ total, ∑ i ∈ Finset.range n, f i = ∑ i ∈ Finset.range n, g i := fun n hn =>
    Finset.sum_congr rfl fun i hi => h i ((Finset.mem_range.mp hi).trans_le hn)
  unfold share
  rw [hsum _ hjj, hsum _ (le_refl _)]

end Spec

section Example

/-- A text of two symbols: every row passes. -/
theorem generated_rows_short :
    let c := [1].foldl tally .new
    (∀ ii < c.total, RowRight c (generateMinimalStaticTable (fun _ => 0) (fun _ => 0) (fun _ => 0) c) ii) ↔
      ∀ ii < c.total, Borrows (share (follows c ii) c.total) c.total :=
  generated_rows (fun _ => 0) (fun _ => 0) (fun _ => 0) [1] (by decide)

/-- The bytes up to 141. Byte 20 is followed by itself 544 times, twice by the terminator and once by
byte 21. -/
def rare : List Nat :=
  List.range' 1 20 ++ List.replicate 544 20 ++ [0, 20, 0, 20] ++ List.range' 21 121

theorem mem_rare {a : Nat} : a ∈ rare ↔ a < 142 := by
  unfold rare
  simp only [List.mem_append, List.mem_range'_1, List.mem_replicate, List.mem_cons, List.not_mem_nil,
    or_false]
  omega

theorem follows_rare : ((0 :: rare).zip rare).filter (fun p => p.1 == 20) =
    List.replicate 544 (20, 20) ++ [(20, 0), (20, 0), (20, 21)] := by
  decide +kernel

theorem count_rare (b : Nat) : ((0 :: rare).zip rare).count (20, b) =
    if b = 0 then 2 else if b = 20 then 544 else if b = 21 then 1 else 0 := by
  rw [← List.count_filter (p := fun p => p.1 == 20) (beq_self_eq_true 20), follows_rare, List.count_append,
    List.count_replicate]
  by_cases h0 : b = 0
  · subst h0
    rfl
  · by_cases h20 : b = 20
    · subst h20
      rfl
    · by_cases h21 : b = 21
      · subst h21
        rfl
      · simp [h0, h20, h21, Ne.symm h0, Ne.symm h20, Ne.symm h21]

/-- The cumulative frequencies behind byte 20, scaled: the last ones are not, since they are all of it. -/
theorem share_rare : ∀ jj < 141, share (fun b => if b = 0 then 2 else if b = 20 then 544 else
    if b = 21 then 1 else 0) 142 jj = if jj < 20 then 239 else if jj = 20 then 65416 else 0 := by
  decide +kernel

/-- The last entry is 65536, so that 1 is to be taken away, from entry 17 on: but that is 256, and the
one before is 255. -/
theorem not_generated_rows :
    let c := (rare.map (BitVec.ofNat 8)).foldl tally .new
    c.total = 142 ∧
      ¬RowRight c (generateMinimalStaticTable (fun _ => 0) (fun _ => 0) (fun _ => 0) c) 20 := by
  intro c
  have hmsg : (rare.map (BitVec.ofNat 8)).map (·.toNat) = rare := by
    rw [List.map_map]
    refine (List.map_congr_left fun a ha => ?_).trans (List.map_id _)
    exact Nat.mod_eq_of_lt ((mem_rare.mp ha).trans (by decide))
  have hlength : rare.length = 689 := by
    simp only [rare, List.length_append, List.length_range', List.length_replicate, List.length_cons,
      List.length_nil]
  have hfew : ∀ a b, TextStatsCollector.new.frequencies a b + (rare.map (BitVec.ofNat 8)).length < 2 ^ 24 := by
    intro a b
    have := new_frequencies_le a b
    rw [List.length_map, hlength]
    omega
  have hseen : ∀ a, c.seen a = decide (a < 142) := by
    intro a
    rw [seen_run, hmsg]
    have hnew : TextStatsCollector.new.seen a = decide (a = 0) := by
      show Function.update (fun _ => false) 0 true a = decide (a = 0)
      rw [Function.update_apply]
      by_cases ha : a = 0 <;> simp [ha]
    rw [hnew, Bool.eq_iff_iff, Bool.or_eq_true, List.contains_iff_mem, mem_rare]
    simp only [decide_eq_true_eq]
    omega
  have hsymbols : symbols c = List.range 142 := by
    unfold symbols
    rw [List.filter_congr fun a _ => hseen a]
    decide +kernel
  have h : Tallied c := tallied_run _ tallied_new
  have htotal : c.total = 142 := by
    rw [h.total, hsymbols, List.length_range]
  have hfollows : ∀ b < 142, follows c 20 b =
      if b = 0 then 2 else if b = 20 then 544 else if b = 21 then 1 else 0 := by
    intro b hb
    have hchar : ∀ jj < 142, (List.range 142).getD jj 0 = jj := fun jj hjj => by
      rw [List.getD_eq_getElem _ _ (by rw [List.length_range]; exact hjj), List.getElem_range]
    unfold follows
    rw [hsymbols, hchar 20 (by decide), hchar b hb, frequencies_run _ _ hfew, hmsg]
    exact (Nat.zero_add _).trans (count_rare b)
  have hneeded : ∀ jj < 141, needed (share (follows c 20) 142) jj = needed (fun jj => if jj < 20 then 239
      else if jj = 20 then 65416 else 0) jj := fun jj hjj => needed_congr fun i hi => by
    rw [share_congr (by omega) hfollows, share_rare i (by omega)]
  refine ⟨htotal, fun hright => ?_⟩
  have hb := (rowRight_iff _ _ _ h (by rw [htotal]; decide) (by rw [htotal]; decide)).mp hright
  rw [htotal] at hb
  have hstep := hb 16 (by decide)
  rw [hneeded 16 (by decide), hneeded 17 (by decide), hneeded 140 (by decide)] at hstep
  exact absurd hstep (by decide +kernel)

end Example

end Libcat.Codec.TextStats
