import Libcat.Lib.Radix

/-!
# Words in a memory

Words stored one after the other, lowest first, in a memory that is a function of the address, and the
loops that go over them upwards or downwards and write a word each round.

- `window`: the words from an address on.
- `SameOff`: nothing changed but a window.
- `forLoop`: what it writes is a `chain` over what it reads.
- `downLoop`: where each step adds up from the top, the loop does.
-/

namespace Libcat.Window

open Radix

section Window

variable {α : Type*} {mem mem' mem'' : Nat → α} {p q m n : Nat}

/-- The words from `p` on. -/
def window (mem : Nat → α) (p n : Nat) : List α := (List.range n).map fun i => mem (p + i)

@[simp] theorem length_window (mem : Nat → α) (p n : Nat) : (window mem p n).length = n := by
  simp [window]

@[simp] theorem window_zero (mem : Nat → α) (p : Nat) : window mem p 0 = [] := rfl

theorem window_one (mem : Nat → α) (p : Nat) : window mem p 1 = [mem p] := rfl

theorem window_add (mem : Nat → α) (p m n : Nat) :
    window mem p (m + n) = window mem p m ++ window mem (p + m) n := by
  simp only [window, List.range_add, List.map_append, List.map_map, Function.comp_def, Nat.add_assoc]

theorem window_succ (mem : Nat → α) (p n : Nat) :
    window mem p (n + 1) = mem p :: window mem (p + 1) n := by
  rw [Nat.add_comm, window_add, window_one, List.singleton_append]

theorem window_concat (mem : Nat → α) (p n : Nat) :
    window mem p (n + 1) = window mem p n ++ [mem (p + n)] := by
  rw [window_add, window_one]

theorem window_congr (h : ∀ i < n, mem' (q + i) = mem (p + i)) : window mem' q n = window mem p n :=
  List.map_congr_left fun i hi => h i (List.mem_range.mp hi)

theorem window_dropLast (mem : Nat → α) (p n : Nat) :
    (window mem p n).dropLast = window mem p (n - 1) := by
  cases n with
  | zero => rfl
  | succ n => rw [window_concat, List.dropLast_concat, Nat.add_sub_cancel]

theorem zip_window (mem mem' : Nat → α) (p q n : Nat) :
    (window mem p n).zip (window mem' q n) =
      (List.range n).map fun i => (mem (p + i), mem' (q + i)) := by
  simp only [window, List.zip_map']

/-- The memories are the same but for a window. -/
def SameOff (p n : Nat) (mem mem' : Nat → α) : Prop := ∀ j, j < p ∨ p + n ≤ j → mem' j = mem j

namespace SameOff

theorem refl (p n : Nat) (mem : Nat → α) : SameOff p n mem mem := fun _ _ => rfl

theorem trans (h : SameOff p n mem mem') (h' : SameOff p n mem' mem'') : SameOff p n mem mem'' :=
  fun j hj => (h' j hj).trans (h j hj)

theorem mono (h : SameOff p n mem mem') (hlo : q ≤ p) (hhi : p + n ≤ q + m) :
    SameOff q m mem mem' := fun j hj => h j (by omega)

theorem window (h : SameOff p n mem mem') (hd : q + m ≤ p ∨ p + n ≤ q) :
    window mem' q m = window mem q m :=
  window_congr fun i hi => h (q + i) (by omega)

theorem update (mem : Nat → α) {j : Nat} (hlo : p ≤ j) (hhi : j < p + n) (x : α) :
    SameOff p n mem (Function.update mem j x) := fun i hi => by
  rw [Function.update_of_ne (by omega)]

end SameOff

/-- `memcpy`. -/
def copy (n src dst : Nat) (mem : Nat → α) : Nat → α := fun i =>
  if dst ≤ i ∧ i < dst + n then mem (src + (i - dst)) else mem i

/-- `memset`, by words. -/
def fill (x : α) (n dst : Nat) (mem : Nat → α) : Nat → α := fun i =>
  if dst ≤ i ∧ i < dst + n then x else mem i

/-- The words of a list stored from `dst` on. -/
def store (l : List α) (dst : Nat) (mem : Nat → α) : Nat → α := fun i =>
  if dst ≤ i then l.getD (i - dst) (mem i) else mem i

theorem sameOff_copy (n src dst : Nat) (mem : Nat → α) : SameOff dst n mem (copy n src dst mem) :=
  fun i hi => if_neg (by omega)

theorem window_copy (n src dst : Nat) (mem : Nat → α) :
    window (copy n src dst mem) dst n = window mem src n :=
  window_congr fun i hi => by rw [copy, if_pos (by omega), Nat.add_sub_cancel_left]

theorem sameOff_fill (x : α) (n dst : Nat) (mem : Nat → α) : SameOff dst n mem (fill x n dst mem) :=
  fun i hi => if_neg (by omega)

theorem window_fill (x : α) (n dst : Nat) (mem : Nat → α) :
    window (fill x n dst mem) dst n = List.replicate n x := by
  refine List.ext_getElem (by simp) fun i hi _ => ?_
  rw [length_window] at hi
  simp [window, fill, hi]

theorem sameOff_store (l : List α) (dst : Nat) (mem : Nat → α) :
    SameOff dst l.length mem (store l dst mem) := fun i hi => by
  unfold store
  split
  · rw [List.getD_eq_getElem?_getD, List.getElem?_eq_none (by omega), Option.getD_none]
  · rfl

theorem window_store (l : List α) (dst : Nat) (mem : Nat → α) :
    window (store l dst mem) dst l.length = l := by
  refine List.ext_getElem (by simp) fun i hi hi' => ?_
  simp [window, store, hi']

/-- What lies in front of a list that is stored is kept. -/
theorem window_store_prefix (l : List α) (dst : Nat) (mem : Nat → α) :
    window (store l dst mem) 0 dst = window mem 0 dst :=
  (sameOff_store l dst mem).window (.inl (by omega))

theorem window_store_end (l : List α) (dst : Nat) (mem : Nat → α) :
    window (store l dst mem) 0 (dst + l.length) = window mem 0 dst ++ l := by
  rw [window_add, window_store_prefix, Nat.zero_add, window_store]

theorem store_nil (dst : Nat) (mem : Nat → α) : store [] dst mem = mem := by
  funext i
  simp [store]

/-- Storing two lists, the second one behind the first, is storing their concatenation. -/
theorem store_append (l l' : List α) (dst : Nat) (mem : Nat → α) :
    store l' (dst + l.length) (store l dst mem) = store (l ++ l') dst mem := by
  funext i
  simp only [store, List.getD_eq_getElem?_getD]
  by_cases h1 : dst ≤ i
  · by_cases h2 : dst + l.length ≤ i
    · rw [if_pos h2, if_pos h1, if_pos h1, List.getElem?_append_right (by omega),
        List.getElem?_eq_none (by omega : l.length ≤ i - dst), Option.getD_none]
      congr 2
      omega
    · rw [if_neg h2, if_pos h1, if_pos h1, List.getElem?_append_left (by omega)]
  · rw [if_neg (by omega), if_neg h1, if_neg h1]

end Window

/-! ## Values -/

section Value

variable {w : Nat}

theorem value_concat (l : List (BitVec w)) (x : BitVec w) :
    value (l ++ [x]) = value l + (2 ^ w) ^ l.length * x.toNat := by
  rw [value_append, value_cons, value_nil, Nat.mul_zero, Nat.add_zero]

theorem value_replicate_zero (n : Nat) : value (List.replicate n (0 : BitVec w)) = 0 :=
  value_eq_zero.mpr fun _ hx => List.eq_of_mem_replicate hx

theorem value_window_concat (mem : Nat → BitVec w) (p n : Nat) :
    value (window mem p (n + 1)) = value (window mem p n) + (2 ^ w) ^ n * (mem (p + n)).toNat := by
  rw [window_concat, value_concat, length_window]

theorem value_window_add (mem : Nat → BitVec w) (p m n : Nat) :
    value (window mem p (m + n)) =
      value (window mem p m) + (2 ^ w) ^ m * value (window mem (p + m) n) := by
  rw [window_add, value_append, length_window]

theorem value_window_lt (mem : Nat → BitVec w) (p n : Nat) :
    value (window mem p n) < (2 ^ w) ^ n := by
  have := value_lt (window mem p n)
  rwa [length_window] at this

theorem weight_concat {α : Type} (f : α → ℤ) (l : List α) (x : α) :
    weight w f (l ++ [x]) = weight w f l + 2 ^ (w * l.length) * f x := by
  induction l with
  | nil => simp [weight]
  | cons y l ih =>
    simp only [List.cons_append, weight, ih, List.length_cons, Nat.mul_add, Nat.mul_one, pow_add]
    ring

end Value

/-! ## Loops -/

section Loops

variable {w n dst : Nat} {α σ : Type}

theorem chain_concat (step : σ → α → BitVec w × σ) (c : σ) (l : List α) (x : α) :
    chain step c (l ++ [x]) =
      ((chain step c l).1 ++ [(step (chain step c l).2 x).1], (step (chain step c l).2 x).2) := by
  induction l generalizing c with
  | nil => rfl
  | cons y l ih => simp only [List.cons_append, chain, ih]

/-- `for (ii = 0; ii < n; ++ii)` with the word at `dst + ii` written each round. -/
def forLoop (step : σ → α → BitVec w × σ) (read : (Nat → BitVec w) → Nat → α) (dst : Nat) :
    Nat → (Nat → BitVec w) → σ → (Nat → BitVec w) × σ
  | 0, mem, c => (mem, c)
  | n + 1, mem, c =>
    let r := forLoop step read dst n mem c
    let s := step r.2 (read r.1 n)
    (Function.update r.1 (dst + n) s.1, s.2)

/-- `for (ii = n - 1; ii >= 0; --ii)` with the word at `dst + ii` written each round. -/
def downLoop (step : σ → α → BitVec w × σ) (read : (Nat → BitVec w) → Nat → α) (dst : Nat) :
    Nat → (Nat → BitVec w) → σ → (Nat → BitVec w) × σ
  | 0, mem, c => (mem, c)
  | n + 1, mem, c =>
    let s := step c (read mem n)
    downLoop step read dst n (Function.update mem (dst + n) s.1) s.2

variable {step : σ → α → BitVec w × σ} {read : (Nat → BitVec w) → Nat → α}
  {mem : Nat → BitVec w} {c : σ}

theorem forLoop_sameOff (step : σ → α → BitVec w × σ) (read : (Nat → BitVec w) → Nat → α)
    (dst n : Nat) (mem : Nat → BitVec w) (c : σ) :
    SameOff dst n mem (forLoop step read dst n mem c).1 := by
  induction n with
  | zero => exact SameOff.refl _ _ _
  | succ n ih =>
    exact (ih.mono le_rfl (by omega)).trans (SameOff.update _ (by omega) (by omega) _)

/-- The first round on its own. -/
theorem forLoop_first (step : σ → α → BitVec w × σ) (read : (Nat → BitVec w) → Nat → α)
    (dst n : Nat) (mem : Nat → BitVec w) (c : σ) :
    forLoop step read dst (n + 1) mem c =
      forLoop step (fun mem i => read mem (i + 1)) (dst + 1) n
        (Function.update mem dst (step c (read mem 0)).1) (step c (read mem 0)).2 := by
  induction n with
  | zero => rfl
  | succ n ih =>
    rw [forLoop, ih]
    simp only [forLoop, Nat.add_assoc dst 1 n, Nat.add_comm 1 n]

/-- A loop that reads nothing it wrote. -/
theorem forLoop_eq (hread : ∀ i < n, ∀ mem', SameOff dst i mem mem' → read mem' i = read mem i) :
    (window (forLoop step read dst n mem c).1 dst n, (forLoop step read dst n mem c).2) =
      chain step c ((List.range n).map (read mem)) := by
  induction n with
  | zero => rfl
  | succ n ih =>
    have ih := ih fun i hi => hread i (by omega)
    have hn := hread n (by omega) _ (forLoop_sameOff step read dst n mem c)
    rw [List.range_succ, List.map_append, List.map_singleton, chain_concat, ← ih, window_concat]
    simp only [forLoop, hn, Function.update_self]
    rw [(SameOff.update (n := 1) _ le_rfl (by omega) _).window (Or.inl le_rfl)]

theorem downLoop_sameOff (step : σ → α → BitVec w × σ) (read : (Nat → BitVec w) → Nat → α)
    (dst n : Nat) (mem : Nat → BitVec w) (c : σ) :
    SameOff dst n mem (downLoop step read dst n mem c).1 := by
  induction n generalizing mem c with
  | zero => exact SameOff.refl _ _ _
  | succ n ih =>
    exact (SameOff.update mem (by omega) (by omega) _).trans ((ih _ _).mono le_rfl (by omega))

/-- Where each step adds up from the top, the loop does. -/
theorem downLoop_value {k : ℤ} {f : α → ℤ} {g : σ → ℤ} {P : σ → Prop}
    (h : ∀ c x, P c → P (step c x).2 ∧
      k * ((step c x).1.toNat : ℤ) + g (step c x).2 = f x + 2 ^ w * g c)
    (hread : ∀ i < n, ∀ mem', SameOff (dst + i + 1) (n - i - 1) mem mem' →
      read mem' i = read mem i) (hc : P c) :
    P (downLoop step read dst n mem c).2 ∧
      k * (value (window (downLoop step read dst n mem c).1 dst n) : ℤ) +
        g (downLoop step read dst n mem c).2 =
          weight w f ((List.range n).map (read mem)) + 2 ^ (w * n) * g c := by
  induction n generalizing mem c with
  | zero => exact ⟨hc, by simp [downLoop, weight]⟩
  | succ n ih =>
    obtain ⟨hP, hstep⟩ := h c (read mem n) hc
    set s := step c (read mem n) with hs
    set mem1 := Function.update mem (dst + n) s.1 with hmem1
    have hoff : SameOff (dst + n) 1 mem mem1 := SameOff.update mem le_rfl (by omega) _
    have hreads : (List.range n).map (read mem1) = (List.range n).map (read mem) :=
      List.map_congr_left fun i hi => by
        have := List.mem_range.mp hi
        exact hread i (by omega) _ (hoff.mono (by omega) (by omega))
    obtain ⟨hP', hval⟩ := @ih mem1 s.2 (fun i hi mem' hmem' => by
      rw [hread i (by omega) mem1 (hoff.mono (by omega) (by omega))]
      exact hread i (by omega) _ ((hoff.mono (by omega) (by omega)).trans
        (hmem'.mono (by omega) (by omega)))) hP
    have htop : (downLoop step read dst n mem1 s.2).1 (dst + n) = s.1 := by
      rw [downLoop_sameOff step read dst n mem1 s.2 _ (Or.inr le_rfl), hmem1, Function.update_self]
    refine ⟨hP', ?_⟩
    show k * (value (window (downLoop step read dst n mem1 s.2).1 dst (n + 1)) : ℤ) +
      g (downLoop step read dst n mem1 s.2).2 = _
    rw [value_window_concat, htop, List.range_succ, List.map_append, List.map_singleton, weight_concat,
      List.length_map, List.length_range, Nat.mul_add, Nat.mul_one, pow_add]
    rw [hreads] at hval
    push_cast
    rw [← pow_mul]
    linear_combination hval + 2 ^ (w * n) * hstep

end Loops

end Libcat.Window
