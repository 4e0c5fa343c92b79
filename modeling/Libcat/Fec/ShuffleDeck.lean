import Libcat.Math.BitMath
import Mathlib.Data.List.Perm.Basic
import Mathlib.Tactic

/-!
# ShuffleDeck16

The deck of the dense rows: each card is put on a place before it, and the card of that place at the
end. The loop is unrolled by four bytes of the generator's words, or by two half words. A card is a
16-bit number, so the deck is right up to as many cards: `shuffleDeck16_spec`.
-/

namespace Libcat.Fec.ShuffleDeck

open scoped List

section Model

/-- A deck, by places. -/
abbrev Deck := Nat → u16

/-- `deck[ii] = deck[jj]; deck[jj] = ii`. -/
def deal (jj ii : Nat) (deck : Deck) : Deck :=
  let deck := Function.update deck ii (deck jj)
  Function.update deck jj (BitVec.ofNat 16 ii)

/-- A byte of a word, modulo `ii`. -/
def byteOf (rv : u32) (shift ii : Nat) : Nat := ((rv >>> shift).setWidth 8).toNat % ii

/-- A half of a word, modulo `ii`. -/
def halfOf (rv : u32) (shift ii : Nat) : Nat := ((rv >>> shift).setWidth 16).toNat % ii

variable {σ : Type} (next : σ → u32 × σ)

/-- The loop with the 8-bit unroll. -/
def shuffle8 (count : u32) : Nat → u32 → σ → Deck → Option (σ × Deck)
  | 0, _, _, _ => none
  | fuel + 1, start, prng, deck =>
    let ii := start.toNat
    let (rv, prng) := next prng
    match (count - start).toNat with
    | 0 => some (prng, deck)
    | 1 => some (prng, deal (byteOf rv 16 ii) ii deck)
    | 2 =>
      let deck := deal (byteOf rv 8 ii) ii deck
      some (prng, deal (byteOf rv 16 (ii + 1)) (ii + 1) deck)
    | 3 =>
      let deck := deal (byteOf rv 0 ii) ii deck
      let deck := deal (byteOf rv 8 (ii + 1)) (ii + 1) deck
      some (prng, deal (byteOf rv 16 (ii + 2)) (ii + 2) deck)
    | _ =>
      let deck := deal (byteOf rv 0 ii) ii deck
      let deck := deal (byteOf rv 8 (ii + 1)) (ii + 1) deck
      let deck := deal (byteOf rv 16 (ii + 2)) (ii + 2) deck
      let deck := deal (byteOf rv 24 (ii + 3)) (ii + 3) deck
      shuffle8 count fuel (start + 4) prng deck

/-- The loop with the 16-bit unroll. -/
def shuffle16 (count : u32) : Nat → u32 → σ → Deck → Option (σ × Deck)
  | 0, _, _, _ => none
  | fuel + 1, start, prng, deck =>
    let ii := start.toNat
    let (rv, prng) := next prng
    match (count - start).toNat with
    | 0 => some (prng, deck)
    | 1 => some (prng, deal (halfOf rv 0 ii) ii deck)
    | _ =>
      let deck := deal (halfOf rv 0 ii) ii deck
      let deck := deal (halfOf rv 16 (ii + 1)) (ii + 1) deck
      shuffle16 count fuel (start + 2) prng deck

/-- `ShuffleDeck16`. -/
def shuffleDeck16 (fuel : Nat) (prng : σ) (deck : Deck) (count : u32) : Option (σ × Deck) :=
  let deck := Function.update deck 0 0
  if count ≤ 256 then shuffle8 next count fuel 1 prng deck else shuffle16 next count fuel 1 prng deck

end Model

section Spec

variable {deck deck' : Deck} {ii jj n : Nat}

/-- The first cards. -/
def cards (deck : Deck) (n : Nat) : List u16 := (List.range n).map deck

/-- The numbers that are dealt. -/
def numbers (n : Nat) : List u16 := (List.range n).map (BitVec.ofNat 16)

/-- The deck after `n` cards. -/
structure Dealt (deck₀ : Deck) (n : Nat) (deck : Deck) : Prop where
  perm : (cards deck n).Perm (numbers n)
  rest : ∀ i, n ≤ i → deck i = deck₀ i

theorem cards_concat (deck : Deck) (n : Nat) : cards deck (n + 1) = cards deck n ++ [deck n] := by
  rw [cards, List.range_succ, List.map_append]
  rfl

theorem cards_congr (h : ∀ i < n, deck i = deck' i) : cards deck n = cards deck' n :=
  List.map_congr_left fun i hi => h i (List.mem_range.mp hi)

/-- A card for one of the first. -/
theorem cards_update (deck : Deck) (x : u16) : ∀ {n : Nat}, jj < n →
    (cards (Function.update deck jj x) n ++ [deck jj]).Perm (cards deck n ++ [x]) := by
  intro n
  induction n with
  | zero => exact fun h => absurd h (Nat.not_lt_zero jj)
  | succ n ih =>
    intro hjj
    rw [cards_concat, cards_concat, List.append_assoc, List.append_assoc]
    by_cases hlast : jj = n
    · subst hlast
      have hsame : cards (Function.update deck jj x) jj = cards deck jj :=
        cards_congr fun i hi => Function.update_of_ne hi.ne _ _
      rw [hsame, Function.update_self]
      exact (List.Perm.swap _ _ _).append_left _
    · rw [Function.update_of_ne (Ne.symm hlast)]
      calc cards (Function.update deck jj x) n ++ ([deck n] ++ [deck jj])
          ~ cards (Function.update deck jj x) n ++ ([deck jj] ++ [deck n]) :=
            (List.Perm.swap _ _ _).append_left _
        _ ~ cards deck n ++ [x] ++ [deck n] := by
            rw [← List.append_assoc]
            exact (ih (by omega)).append_right _
        _ ~ cards deck n ++ ([deck n] ++ [x]) := by
            rw [List.append_assoc]
            exact (List.Perm.swap _ _ _).append_left _

variable {deck₀ : Deck}

theorem Dealt.first (deck₀ : Deck) : Dealt deck₀ 1 (Function.update deck₀ 0 0) where
  perm := .refl _
  rest i hi := Function.update_of_ne (by omega) _ _

/-- One card more. -/
theorem Dealt.deal (h : Dealt deck₀ n deck) (hjj : jj < n) :
    Dealt deck₀ (n + 1) (ShuffleDeck.deal jj n deck) := by
  constructor
  · have hold : cards (Function.update deck n (deck jj)) n = cards deck n :=
      cards_congr fun i hi => Function.update_of_ne hi.ne _ _
    have hmoved := cards_update (Function.update deck n (deck jj)) (BitVec.ofNat 16 n) hjj
    rw [Function.update_of_ne hjj.ne, hold] at hmoved
    have hlast : ShuffleDeck.deal jj n deck n = deck jj := by
      unfold ShuffleDeck.deal
      rw [Function.update_of_ne hjj.ne', Function.update_self]
    rw [cards_concat, hlast]
    refine hmoved.trans ?_
    rw [numbers, List.range_succ, List.map_append]
    exact h.perm.append_right _
  · intro i hi
    unfold ShuffleDeck.deal
    rw [Function.update_of_ne (by omega), Function.update_of_ne (by omega)]
    exact h.rest i (by omega)

theorem byteOf_lt (rv : u32) (shift : Nat) {ii : Nat} (h : 0 < ii) : byteOf rv shift ii < ii :=
  Nat.mod_lt _ h

theorem halfOf_lt (rv : u32) (shift : Nat) {ii : Nat} (h : 0 < ii) : halfOf rv shift ii < ii :=
  Nat.mod_lt _ h

variable {σ : Type} {next : σ → u32 × σ} {count start : u32} {fuel : Nat}

theorem left_toNat (h : start.toNat ≤ count.toNat) :
    (count - start).toNat = count.toNat - start.toNat :=
  BitVec.toNat_sub_of_le (BitVec.le_def.mpr h)

theorem ahead_toNat {k : Nat} (h : start.toNat + k ≤ count.toNat) :
    (start + BitVec.ofNat 32 k).toNat = start.toNat + k := by
  have := count.isLt
  rw [BitVec.toNat_add, BitVec.toNat_ofNat, Nat.add_mod_mod, Nat.mod_eq_of_lt (by omega)]

/-- By induction on the rounds: each deals four cards, and the last one those that are left. -/
theorem shuffle8_spec (fuel : Nat) : ∀ {start : u32} (prng : σ) {deck : Deck},
    count.toNat < start.toNat + fuel → 0 < start.toNat → start.toNat ≤ count.toNat →
      Dealt deck₀ start.toNat deck →
        ∃ prng' deck', shuffle8 next count fuel start prng deck = some (prng', deck') ∧
          Dealt deck₀ count.toNat deck' := by
  induction fuel with
  | zero => exact fun prng _ hfuel _ hle _ => absurd hfuel (by omega)
  | succ fuel ih =>
    intro start prng deck hfuel hpos hle h
    unfold shuffle8
    rw [left_toNat hle]
    rcases hleft : count.toNat - start.toNat with _ | _ | _ | _ | left
    · obtain heq : count.toNat = start.toNat := by omega
      exact ⟨_, _, rfl, by rw [heq]; exact h⟩
    · obtain heq : count.toNat = start.toNat + 1 := by omega
      exact ⟨_, _, rfl, by rw [heq]; exact h.deal (byteOf_lt _ _ hpos)⟩
    · obtain heq : count.toNat = start.toNat + 1 + 1 := by omega
      refine ⟨_, _, rfl, ?_⟩
      rw [heq]
      exact (h.deal (byteOf_lt _ _ hpos)).deal (byteOf_lt _ _ (by omega))
    · obtain heq : count.toNat = start.toNat + 1 + 1 + 1 := by omega
      refine ⟨_, _, rfl, ?_⟩
      rw [heq]
      exact ((h.deal (byteOf_lt _ _ hpos)).deal (byteOf_lt _ _ (by omega))).deal
        (byteOf_lt _ _ (by omega))
    · have hle : start.toNat + 4 ≤ count.toNat := by omega
      have hnext : (start + 4).toNat = start.toNat + 4 := ahead_toNat hle
      refine ih _ (by omega) (by omega) (by omega) ?_
      rw [hnext]
      exact (((h.deal (byteOf_lt _ _ hpos)).deal (byteOf_lt _ _ (by omega))).deal
        (byteOf_lt _ _ (by omega))).deal (byteOf_lt _ _ (by omega))

theorem shuffle16_spec (fuel : Nat) : ∀ {start : u32} (prng : σ) {deck : Deck},
    count.toNat < start.toNat + fuel → 0 < start.toNat → start.toNat ≤ count.toNat →
      Dealt deck₀ start.toNat deck →
        ∃ prng' deck', shuffle16 next count fuel start prng deck = some (prng', deck') ∧
          Dealt deck₀ count.toNat deck' := by
  induction fuel with
  | zero => exact fun prng _ hfuel _ hle _ => absurd hfuel (by omega)
  | succ fuel ih =>
    intro start prng deck hfuel hpos hle h
    unfold shuffle16
    rw [left_toNat hle]
    rcases hleft : count.toNat - start.toNat with _ | _ | left
    · obtain heq : count.toNat = start.toNat := by omega
      exact ⟨_, _, rfl, by rw [heq]; exact h⟩
    · obtain heq : count.toNat = start.toNat + 1 := by omega
      exact ⟨_, _, rfl, by rw [heq]; exact h.deal (halfOf_lt _ _ hpos)⟩
    · have hle : start.toNat + 2 ≤ count.toNat := by omega
      have hnext : (start + 2).toNat = start.toNat + 2 := ahead_toNat hle
      refine ih _ (by omega) (by omega) (by omega) ?_
      rw [hnext]
      exact (h.deal (halfOf_lt _ _ hpos)).deal (halfOf_lt _ _ (by omega))

/-- `ShuffleDeck16` deals the numbers below `count`, as far as a card can hold them. -/
theorem shuffleDeck16_spec (next : σ → u32 × σ) (prng : σ) (deck : Deck) {count : u32}
    (hcount : 0 < count.toNat) (hfuel : count.toNat ≤ fuel) :
    ∃ prng' deck', shuffleDeck16 next fuel prng deck count = some (prng', deck') ∧
      Dealt deck count.toNat deck' := by
  unfold shuffleDeck16
  dsimp only
  have hone : (1 : u32).toNat = 1 := rfl
  split
  · exact shuffle8_spec fuel prng (by omega) (by omega) (by omega) (.first deck)
  · exact shuffle16_spec fuel prng (by omega) (by omega) (by omega) (.first deck)

/-- What the cards show. -/
theorem Dealt.shown (h : Dealt deck₀ n deck) :
    ((List.range n).map fun i => (deck i).toNat) ~ (List.range n).map (· % 0x10000) := by
  have hperm := h.perm.map BitVec.toNat
  rw [cards, numbers, List.map_map, List.map_map] at hperm
  refine hperm.trans (.of_eq (List.map_congr_left fun i _ => ?_))
  exact BitVec.toNat_ofNat i 16

/-- The deck is a permutation of the places if a card can hold each of them. -/
theorem Dealt.range_iff (h : Dealt deck₀ n deck) :
    ((List.range n).map fun i => (deck i).toNat) ~ List.range n ↔ n ≤ 0x10000 := by
  constructor
  · intro hperm
    by_contra hn
    have hmem : 0x10000 ∈ List.range n := List.mem_range.mpr (by omega)
    obtain ⟨i, -, hi⟩ := List.mem_map.mp (hperm.mem_iff.mpr hmem)
    have := (deck i).isLt
    omega
  · intro hn
    refine h.shown.trans (.of_eq ?_)
    conv_rhs => rw [← List.map_id (List.range n)]
    exact List.map_congr_left fun i hi => Nat.mod_eq_of_lt (by
      have := List.mem_range.mp hi
      omega)

end Spec

end Libcat.Fec.ShuffleDeck
