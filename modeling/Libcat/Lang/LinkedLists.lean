import Libcat.Lib.Intrusive
import Libcat.Lib.Run

/-!
# LinkedLists

`DList` and `DListForward`: lists through the `_dl_next` and `_dl_prev` members of their items. An
operation is the body of a macro. `PushBack` has the body of `PushFront`, `CAT_BDLL_INSERT_BEFORE`
does not tell the item before about the new one, and neither `INSERT_AFTER` the item behind.

Several lists live over the items at once, and an item is on one of them at most: what `Chop` returns
is a list of its own.

- `Holds`: the traversals of a `DList` are a sequence and its reverse.
- `dlist_operations` says in which runs the lists are what the same operations make of sequences.
-/

namespace Libcat.Lang.LinkedLists

open Intrusive

/-- The members of all `DListItem`. -/
structure Links (α : Type) where
  next : α → Option α
  prev : α → Option α

structure DListForward (α : Type) where
  head : Option α

structure DList (α : Type) where
  head : Option α
  tail : Option α

section Model

variable {α : Type} [DecidableEq α]

/-! ## Forward-iterating lists -/

/-- `CAT_FDLL_PUSH_FRONT`. -/
def DListForward.pushFront (m : Links α) (l : DListForward α) (obj : α) : Links α × DListForward α :=
  let prev := Function.update m.prev obj none
  let next := Function.update m.next obj l.head
  (⟨next, write prev l.head (some obj)⟩, ⟨some obj⟩)

/-- `CAT_FDLL_INSERT_BEFORE`. -/
def DListForward.insertBefore (m : Links α) (l : DListForward α) (obj another : α) :
    Links α × DListForward α :=
  let prev := Function.update m.prev obj (m.prev another)
  let next := Function.update m.next obj (some another)
  let head := if prev another = none then some obj else l.head
  (⟨next, Function.update prev another (some obj)⟩, ⟨head⟩)

/-- `CAT_FDLL_INSERT_AFTER`. -/
def DListForward.insertAfter (m : Links α) (l : DListForward α) (obj another : α) :
    Links α × DListForward α :=
  let next := Function.update m.next obj (m.next another)
  let prev := Function.update m.prev obj (some another)
  (⟨Function.update next another (some obj), prev⟩, l)

/-- `CAT_FDLL_ERASE`. -/
def DListForward.erase (m : Links α) (l : DListForward α) (obj : α) : Links α × DListForward α :=
  let next := write m.next (m.prev obj) (m.next obj)
  let head := if m.prev obj = none then m.next obj else l.head
  (⟨next, write m.prev (next obj) (m.prev obj)⟩, ⟨head⟩)

/-! ## Bidirectionally-iterating lists -/

/-- `CAT_BDLL_PUSH_FRONT`. -/
def DList.pushFront (m : Links α) (l : DList α) (obj : α) : Links α × DList α :=
  let prev := Function.update m.prev obj none
  let next := Function.update m.next obj l.head
  (⟨next, write prev l.head (some obj)⟩, ⟨some obj, if l.head = none then some obj else l.tail⟩)

/-- `PushBack`. Its macro is that of `PushFront`. -/
def DList.pushBack (m : Links α) (l : DList α) (obj : α) : Links α × DList α := l.pushFront m obj

/-- `CAT_BDLL_INSERT_BEFORE`. -/
def DList.insertBefore (m : Links α) (l : DList α) (obj another : α) : Links α × DList α :=
  let prev := Function.update m.prev obj (m.prev another)
  let next := Function.update m.next obj (some another)
  let head := if prev another = none then some obj else l.head
  (⟨next, Function.update prev another (some obj)⟩, ⟨head, l.tail⟩)

/-- `CAT_BDLL_INSERT_AFTER`. -/
def DList.insertAfter (m : Links α) (l : DList α) (obj another : α) : Links α × DList α :=
  let next := Function.update m.next obj (m.next another)
  let prev := Function.update m.prev obj (some another)
  let tail := if next another = none then some obj else l.tail
  (⟨Function.update next another (some obj), prev⟩, ⟨l.head, tail⟩)

/-- `CAT_BDLL_ERASE`. -/
def DList.erase (m : Links α) (l : DList α) (obj : α) : Links α × DList α :=
  let next := write m.next (m.prev obj) (m.next obj)
  let head := if m.prev obj = none then m.next obj else l.head
  let tail := if next obj = none then m.prev obj else l.tail
  (⟨next, write m.prev (next obj) (m.prev obj)⟩, ⟨head, tail⟩)

/-- `Chop`: the links, the list, and the list that is returned. -/
def DList.chop (m : Links α) (l : DList α) : Option α → Links α × DList α × DList α
  -- `Steal(result)` takes over the new list, which is empty
  | none => (m, ⟨none, none⟩, ⟨none, none⟩)
  | some item =>
    let tail := m.prev item
    let prev := Function.update m.prev item none
    let next := write m.next tail none
    let head := if tail = none then none else l.head
    (⟨next, prev⟩, ⟨head, tail⟩, ⟨some item, l.tail⟩)

/-! ## Traversals -/

/-- `DListIteratorBase`, with the member that `GetNext` or `GetPrev` follows. -/
structure DListIterator (α : Type) where
  item : Option α
  next : Option α

def DListIterator.start (link : α → Option α) (item : Option α) : DListIterator α :=
  ⟨item, item.bind link⟩

/-- `++` of a `ForwardIterator`, `--` of a `BackIterator`. -/
def DListIterator.advance (link : α → Option α) (it : DListIterator α) : DListIterator α :=
  ⟨it.next, it.next.bind link⟩

/-- The items of a loop, in `fuel` rounds at most. -/
def DListIterator.visit (link : α → Option α) : Nat → DListIterator α → List α
  | 0, _ => []
  | fuel + 1, it =>
    match it.item with
    | none => []
    | some a => a :: visit link fuel (it.advance link)

/-- The loop from `item` on visits `xs` and ends. -/
def Traverses (link : α → Option α) (item : Option α) (xs : List α) : Prop :=
  ∃ n, ∀ fuel, n ≤ fuel → (DListIterator.start link item).visit link fuel = xs

/-! ## Runs -/

/-- The operations that both kinds of list have. -/
inductive Op (α : Type) where
  | pushFront (item : α)
  | insertBefore (item before : α)
  | insertAfter (item after : α)
  | erase (item : α)

inductive DListOp (α : Type) where
  | common (op : Op α)
  | pushBack (item : α)
  /-- The list that is returned is kept as list `into`. -/
  | chop (item : α) (into : Nat)

def Op.onForward (m : Links α) (l : DListForward α) : Op α → Links α × DListForward α
  | .pushFront item => l.pushFront m item
  | .insertBefore item before => l.insertBefore m item before
  | .insertAfter item after => l.insertAfter m item after
  | .erase item => l.erase m item

def Op.onDList (m : Links α) (l : DList α) : Op α → Links α × DList α
  | .pushFront item => l.pushFront m item
  | .insertBefore item before => l.insertBefore m item before
  | .insertAfter item after => l.insertAfter m item after
  | .erase item => l.erase m item

/-- What an operation makes of a sequence. -/
def Op.onSequence (xs : List α) : Op α → List α
  | .pushFront item => item :: xs
  | .insertBefore item before =>
    xs.takeWhile (fun x => decide (x ≠ before)) ++ item :: xs.dropWhile fun x => decide (x ≠ before)
  | .insertAfter item after =>
    xs.takeWhile (fun x => decide (x ≠ after)) ++
      after :: item :: (xs.dropWhile fun x => decide (x ≠ after)).tail
  | .erase item => xs.erase item

/-- Lists over the same items, and the sequences that they stand for. -/
structure Lists (α L : Type) where
  links : Links α
  lists : Nat → L
  seqs : Nat → List α

/-- Lists after their constructors. -/
def Lists.initial {L : Type} (empty : L) : Lists α L where
  links := ⟨fun _ => none, fun _ => none⟩
  lists := fun _ => empty
  seqs := fun _ => []

def forwardStep (s : Lists α (DListForward α)) (a : Nat × Op α) :
    Lists α (DListForward α) × List Unit :=
  let r := a.2.onForward s.links (s.lists a.1)
  ({ links := r.1
     lists := Function.update s.lists a.1 r.2
     seqs := Function.update s.seqs a.1 (a.2.onSequence (s.seqs a.1)) }, [])

def dlistStep (s : Lists α (DList α)) : Nat × DListOp α → Lists α (DList α) × List Unit
  | (k, .common op) =>
    let r := op.onDList s.links (s.lists k)
    ({ links := r.1
       lists := Function.update s.lists k r.2
       seqs := Function.update s.seqs k (op.onSequence (s.seqs k)) }, [])
  | (k, .pushBack item) =>
    let r := (s.lists k).pushBack s.links item
    ({ links := r.1
       lists := Function.update s.lists k r.2
       seqs := Function.update s.seqs k (s.seqs k ++ [item]) }, [])
  | (k, .chop item into) =>
    let r := (s.lists k).chop s.links (some item)
    let xs := s.seqs k
    ({ links := r.1
       lists := Function.update (Function.update s.lists k r.2.1) into r.2.2
       seqs := Function.update
        (Function.update s.seqs k (xs.takeWhile fun x => decide (x ≠ item))) into
        (xs.dropWhile fun x => decide (x ≠ item)) }, [])

/-- A new item is on no list, and an item an operation refers to is on its list. -/
def Op.Admissible (seqs : Nat → List α) (k : Nat) : Op α → Prop
  | .pushFront item => ∀ j, item ∉ seqs j
  | .insertBefore item before => (∀ j, item ∉ seqs j) ∧ before ∈ seqs k
  | .insertAfter item after => (∀ j, item ∉ seqs j) ∧ after ∈ seqs k
  | .erase item => item ∈ seqs k

def ForwardAdmissible (s : Lists α (DListForward α)) (a : Nat × Op α) : Prop :=
  a.2.Admissible s.seqs a.1

def DListAdmissible (s : Lists α (DList α)) : Nat × DListOp α → Prop
  | (k, .common op) => op.Admissible s.seqs k
  | (_, .pushBack item) => ∀ j, item ∉ s.seqs j
  | (k, .chop item into) => item ∈ s.seqs k ∧ s.seqs into = []

/-- The traversal of every list is its sequence. -/
def ForwardRight (s : Lists α (DListForward α)) : Prop :=
  ∀ k, Traverses s.links.next (s.lists k).head (s.seqs k)

/-- The traversals of every list are its sequence and the reverse. -/
def DListRight (s : Lists α (DList α)) : Prop :=
  ∀ k, Traverses s.links.next (s.lists k).head (s.seqs k) ∧
    Traverses s.links.prev (s.lists k).tail (s.seqs k).reverse

/-- The item before another one of a sequence. -/
def itemBefore (xs : List α) (x : α) : Option α := (xs.takeWhile fun y => decide (y ≠ x)).getLast?

/-- The operations that a `DListForward` does right. -/
def ForwardOk (s : Lists α (DListForward α)) : Nat × Op α → Prop
  | (k, .insertBefore _ before) => (s.lists k).head = some before ∧ s.links.prev before = none
  | (k, .erase item) => s.links.prev item = itemBefore (s.seqs k) item
  | _ => True

/-- The operations that a `DList` does right. -/
def DListOk (s : Lists α (DList α)) : Nat × DListOp α → Prop
  | (k, .common (.insertBefore _ before)) => (s.lists k).head = some before
  | (k, .common (.insertAfter _ after)) => (s.lists k).tail = some after
  | (k, .pushBack _) => (s.lists k).head = none
  | _ => True

end Model

section Spec

variable {α : Type}

/-! ## Traversals -/

theorem visit_of_seg {link : α → Option α} :
    ∀ {xs : List α} {p : Option α}, Seg link p xs none →
      ∀ fuel, xs.length < fuel → (DListIterator.start link p).visit link fuel = xs := by
  intro xs
  induction xs with
  | nil =>
    rintro p rfl fuel hfuel
    obtain ⟨f, rfl⟩ := Nat.exists_eq_succ_of_ne_zero (Nat.zero_lt_of_lt hfuel).ne'
    rfl
  | cons a xs ih =>
    rintro p ⟨rfl, hxs⟩ fuel hfuel
    obtain ⟨f, rfl⟩ := Nat.exists_eq_succ_of_ne_zero (Nat.zero_lt_of_lt hfuel).ne'
    exact congrArg (a :: ·) (ih hxs f (Nat.lt_of_succ_lt_succ hfuel))

theorem traverses_iff {link : α → Option α} {p : Option α} {xs : List α} :
    Traverses link p xs ↔ Seg link p xs none := by
  constructor
  · rintro ⟨n, hn⟩
    induction xs generalizing p n with
    | nil =>
      cases p with
      | none => rfl
      | some a => exact absurd (hn (n + 1) (Nat.le_succ n)) (List.cons_ne_nil _ _)
    | cons b xs ih =>
      cases p with
      | none => exact absurd (hn (n + 1) (Nat.le_succ n)).symm (List.cons_ne_nil _ _)
      | some a =>
        have hcons : ∀ fuel, n ≤ fuel →
            a = b ∧ (DListIterator.start link (link a)).visit link fuel = xs := fun fuel hfuel =>
          List.cons.inj (hn (fuel + 1) (Nat.le_succ_of_le hfuel))
        obtain ⟨rfl, -⟩ := hcons n le_rfl
        exact ⟨rfl, ih n fun fuel hfuel => (hcons fuel hfuel).2⟩
  · intro h
    exact ⟨xs.length + 1, fun fuel hfuel => visit_of_seg h fuel hfuel⟩

/-- The pointers lead through `xs` and back. -/
structure Holds (m : Links α) (l : DList α) (xs : List α) : Prop where
  forward : Seg m.next l.head xs none
  backward : Seg m.prev l.tail xs.reverse none

/-- A list seen from its tail. -/
def Links.mirror (m : Links α) : Links α := ⟨m.prev, m.next⟩

def DList.mirror (l : DList α) : DList α := ⟨l.tail, l.head⟩

section Holds

variable {m m' : Links α} {l : DList α} {xs ys : List α} {x y : α}

theorem Holds.tail_eq (h : Holds m l xs) : l.tail = xs.getLast? := by
  rw [h.backward.head, List.head?_reverse]

theorem Holds.linked (h : Holds m l xs) : Linked m.next m.prev l.head xs :=
  ⟨h.forward, h.tail_eq ▸ h.backward⟩

theorem holds_of_linked (h : Linked m.next m.prev l.head xs) (ht : l.tail = xs.getLast?) :
    Holds m l xs :=
  ⟨h.next, ht ▸ h.prev⟩

theorem Holds.mirror (h : Holds m l xs) : Holds m.mirror l.mirror xs.reverse :=
  ⟨h.backward, by rw [List.reverse_reverse]; exact h.forward⟩

theorem Holds.of_mirror (h : Holds m.mirror l.mirror xs.reverse) : Holds m l xs := by
  have := h.mirror
  rwa [List.reverse_reverse] at this

theorem Holds.unique (h : Holds m l xs) (h' : Holds m l ys) : xs = ys := h.forward.unique h'.forward

/-- A list depends on the links of its items only. -/
theorem Holds.congr (h : Holds m l xs) (hm : ∀ a ∈ xs, m'.next a = m.next a ∧ m'.prev a = m.prev a) :
    Holds m' l xs :=
  ⟨h.forward.congr fun a ha => (hm a ha).1,
    h.backward.congr fun a ha => (hm a (List.mem_reverse.mp ha)).2⟩

end Holds

/-! ## One operation on one list -/

section Operations

variable [DecidableEq α] {m : Links α} {l : DList α} {xs l1 l2 : List α} {obj x y : α}

theorem takeWhile_split (h : y ∉ l1) :
    (l1 ++ y :: l2).takeWhile (fun x => decide (x ≠ y)) = l1 := by
  rw [List.takeWhile_append_of_pos fun x hx => decide_eq_true (show x ≠ y from fun he => h (he ▸ hx)),
    List.takeWhile_cons_of_neg (by simp), List.append_nil]

theorem dropWhile_split (h : y ∉ l1) :
    (l1 ++ y :: l2).dropWhile (fun x => decide (x ≠ y)) = y :: l2 := by
  rw [List.dropWhile_append_of_pos fun x hx => decide_eq_true (show x ≠ y from fun he => h (he ▸ hx)),
    List.dropWhile_cons_of_neg (by simp)]

theorem itemBefore_split (h : y ∉ l1) : itemBefore (l1 ++ y :: l2) y = l1.getLast? := by
  unfold itemBefore
  rw [takeWhile_split h]

theorem onSequence_insertBefore (h : y ∉ l1) :
    (Op.insertBefore x y).onSequence (l1 ++ y :: l2) = l1 ++ x :: y :: l2 := by
  simp only [Op.onSequence]
  rw [takeWhile_split h, dropWhile_split h]

theorem onSequence_insertAfter (h : y ∉ l1) :
    (Op.insertAfter x y).onSequence (l1 ++ y :: l2) = l1 ++ y :: x :: l2 := by
  simp only [Op.onSequence]
  rw [takeWhile_split h, dropWhile_split h, List.tail_cons]

theorem onSequence_erase (h : y ∉ l1) : (Op.erase y).onSequence (l1 ++ y :: l2) = l1 ++ l2 := by
  simp only [Op.onSequence]
  rw [List.erase_append_right _ h, List.erase_cons_head]

/-- The sequences of the two insertions mirror each other. -/
theorem onSequence_mirror (hnd : xs.Nodup) (hy : y ∈ xs) :
    ((Op.insertAfter x y).onSequence xs).reverse = (Op.insertBefore x y).onSequence xs.reverse := by
  obtain ⟨l1, l2, rfl, hl1⟩ := List.eq_append_cons_of_mem hy
  have hl2 : y ∉ l2.reverse := fun h =>
    (List.nodup_cons.mp (List.nodup_append.mp hnd).2.1).1 (List.mem_reverse.mp h)
  rw [onSequence_insertAfter hl1]
  simp only [List.reverse_append, List.reverse_cons, List.append_assoc, List.singleton_append]
  exact (onSequence_insertBefore hl2).symm

/-- The second read of `(obj)->next` in the macro for `Erase`. -/
theorem write_prev_self (m : Links α) (x : α) : write m.next (m.prev x) (m.next x) x = m.next x := by
  cases m.prev x with
  | none => rfl
  | some b =>
    by_cases hb : x = b
    · subst hb
      exact Function.update_self ..
    · exact Function.update_of_ne hb ..

theorem Holds.pushFront (h : Holds m l xs) (hnd : xs.Nodup) (hobj : obj ∉ xs) :
    Holds (l.pushFront m obj).1 (l.pushFront m obj).2 (obj :: xs) := by
  have hhead : l.head ≠ some obj := fun he => hobj (h.linked.mem_of_head he)
  refine holds_of_linked ?_ ?_
  · simp only [DList.pushFront]
    rw [write_update_comm hhead]
    exact h.linked.pushFront hnd hobj
  · simp only [DList.pushFront]
    rw [h.forward.head, h.tail_eq]
    cases xs with
    | nil => rfl
    | cons a xs => rw [List.getLast?_cons_cons, List.head?_cons, if_neg (Option.some_ne_none a)]

/-- Before the first item, `InsertBefore` is `PushFront`. -/
theorem insertBefore_eq_pushFront (hhead : l.head = some y) (hprev : m.prev y = none) (hne : y ≠ obj) :
    l.insertBefore m obj y = l.pushFront m obj := by
  unfold DList.insertBefore DList.pushFront
  simp only [Function.update_of_ne hne, hprev, hhead, if_true, if_neg (Option.some_ne_none y)]
  rfl

theorem Holds.insertBefore (h : Holds m l xs) (hnd : xs.Nodup) (hobj : obj ∉ xs)
    (hy : l.head = some y) :
    Holds (l.insertBefore m obj y).1 (l.insertBefore m obj y).2
      ((Op.insertBefore obj y).onSequence xs) := by
  obtain ⟨l2, rfl⟩ : ∃ l2, xs = y :: l2 := by
    cases xs with
    | nil => exact absurd (h.forward.symm.trans hy) (by simp)
    | cons a l2 => exact ⟨l2, by rw [Option.some.inj (h.forward.1.symm.trans hy)]⟩
  have hne : y ≠ obj := fun he => hobj (he ▸ List.mem_cons_self)
  have hprev : m.prev y = none := h.linked.prev_eq (l := []) (m := l2)
  rw [insertBefore_eq_pushFront hy hprev hne,
    show y :: l2 = [] ++ y :: l2 from rfl, onSequence_insertBefore List.not_mem_nil]
  exact h.pushFront hnd hobj

/-- In the middle of a list the way to the new item is missing. -/
theorem not_insertBefore (h : Holds m l xs) (hobj : obj ∉ xs) (hy : y ∈ xs) (hhead : l.head ≠ some y) :
    ¬Holds (l.insertBefore m obj y).1 (l.insertBefore m obj y).2
      ((Op.insertBefore obj y).onSequence xs) := by
  obtain ⟨l1, l2, rfl, hl1⟩ := List.eq_append_cons_of_mem hy
  have hne : y ≠ obj := fun he => hobj (he ▸ hy)
  have hprev : m.prev y ≠ none := by
    rw [h.linked.prev_eq, Ne, List.getLast?_eq_none_iff]
    rintro rfl
    exact hhead h.forward.1
  intro h'
  have hseg := h'.forward
  simp only [DList.insertBefore, Function.update_of_ne hne, if_neg hprev] at hseg
  have hsame := hseg.unique (h.forward.frame hobj)
  rw [onSequence_insertBefore hl1] at hsame
  have := congrArg List.length hsame
  simp at this

theorem Holds.insertAfter (h : Holds m l xs) (hnd : xs.Nodup) (hobj : obj ∉ xs)
    (hy : l.tail = some y) :
    Holds (l.insertAfter m obj y).1 (l.insertAfter m obj y).2
      ((Op.insertAfter obj y).onSequence xs) := by
  have hmem : y ∈ xs := List.mem_of_mem_getLast? (h.tail_eq.symm.trans hy)
  have hm := h.mirror.insertBefore (List.nodup_reverse.mpr hnd)
    (fun hx => hobj (List.mem_reverse.mp hx)) hy
  rw [← onSequence_mirror hnd hmem] at hm
  exact Holds.of_mirror hm

theorem not_insertAfter (h : Holds m l xs) (hnd : xs.Nodup) (hobj : obj ∉ xs) (hy : y ∈ xs)
    (htail : l.tail ≠ some y) :
    ¬Holds (l.insertAfter m obj y).1 (l.insertAfter m obj y).2
      ((Op.insertAfter obj y).onSequence xs) := by
  intro h'
  refine not_insertBefore h.mirror (fun hx => hobj (List.mem_reverse.mp hx))
    (List.mem_reverse.mpr hy) htail ?_
  rw [← onSequence_mirror hnd hy]
  exact h'.mirror

theorem Holds.erase (h : Holds m l xs) (hnd : xs.Nodup) (hx : x ∈ xs) :
    Holds (l.erase m x).1 (l.erase m x).2 ((Op.erase x).onSequence xs) := by
  obtain ⟨l1, l2, rfl, hl1⟩ := List.eq_append_cons_of_mem hx
  rw [onSequence_erase hl1]
  refine holds_of_linked ?_ ?_
  · simp only [DList.erase, write_prev_self]
    exact h.linked.unlink hnd
  · simp only [DList.erase, write_prev_self]
    rw [h.forward.next_eq, h.linked.prev_eq, h.tail_eq]
    rcases List.eq_nil_or_concat l2 with rfl | ⟨l2, b, rfl⟩
    · simp
    · have hlast : (x :: (l2 ++ [b])).getLast? = some b := by
        rw [← List.cons_append, List.getLast?_concat]
      simp [List.getLast?_append, hlast]

theorem Holds.pushBack_of_empty (h : Holds m l xs) (hobj : obj ∉ xs) (hempty : l.head = none) :
    Holds (l.pushBack m obj).1 (l.pushBack m obj).2 (xs ++ [obj]) := by
  obtain rfl : xs = [] := by
    cases xs with
    | nil => rfl
    | cons a xs => exact absurd (h.forward.1.symm.trans hempty) (by simp)
  exact h.pushFront List.nodup_nil hobj

theorem not_pushBack (h : Holds m l xs) (hnd : xs.Nodup) (hobj : obj ∉ xs) (hhead : l.head ≠ none) :
    ¬Holds (l.pushBack m obj).1 (l.pushBack m obj).2 (xs ++ [obj]) := by
  intro h'
  have hsame := h'.unique (h.pushFront hnd hobj)
  cases xs with
  | nil => exact hhead h.forward
  | cons a xs =>
    obtain ⟨rfl, -⟩ := List.cons.inj hsame
    exact hobj List.mem_cons_self

/-- `Chop` returns the items from `x` on and keeps the ones before. -/
theorem Holds.chop (h : Holds m l (l1 ++ x :: l2)) (hnd : (l1 ++ x :: l2).Nodup) :
    Holds (l.chop m (some x)).1 (l.chop m (some x)).2.1 l1 ∧
      Holds (l.chop m (some x)).1 (l.chop m (some x)).2.2 (x :: l2) := by
  have hprev := h.linked.prev_eq
  have hdisj := (List.nodup_append.mp hnd).2.2
  have hx1 : x ∉ l1 := fun hx => hdisj x hx x List.mem_cons_self rfl
  have hlast : ∀ a ∈ x :: l2, l1.getLast? ≠ some a := fun a ha he =>
    hdisj a (List.mem_of_mem_getLast? he) a ha rfl
  obtain ⟨r, hback, hrest⟩ : ∃ r, Seg m.prev l.tail (x :: l2).reverse r ∧ Seg m.prev r l1.reverse none := by
    have hseg := h.backward
    rw [List.reverse_append] at hseg
    exact Seg.append.mp hseg
  obtain ⟨q, hl2, rfl, hr⟩ : ∃ q, Seg m.prev l.tail l2.reverse q ∧ q = some x ∧ m.prev x = r := by
    rw [List.reverse_cons] at hback
    obtain ⟨q, hl2, hq, hr⟩ := Seg.append.mp hback
    exact ⟨q, hl2, hq, hr⟩
  have hx2 : x ∉ l2.reverse := fun hx =>
    (List.nodup_cons.mp (List.nodup_append.mp hnd).2.1).1 (List.mem_reverse.mp hx)
  simp only [DList.chop]
  refine ⟨⟨?_, ?_⟩, ⟨?_, ?_⟩⟩
  · have hcut := Seg.cut (l := l1) (c := x :: l2) (m := []) (by simpa using h.forward) (by simpa using hnd)
    simp only [List.append_nil, List.head?_nil] at hcut
    simp only [hprev, List.getLast?_eq_none_iff]
    exact hcut
  · have hx1' : x ∉ l1.reverse := fun hx => hx1 (List.mem_reverse.mp hx)
    rw [← hr] at hrest
    exact hrest.frame hx1'
  · obtain ⟨p, -, hp⟩ := Seg.append.mp h.forward
    have hp' : Seg m.next (some x) (x :: l2) none := hp.1 ▸ hp
    refine hp'.congr fun a ha => ?_
    rw [hprev]
    exact write_of_ne (hlast a ha)
  · rw [List.reverse_cons]
    exact Seg.append.mpr ⟨some x, hl2.frame hx2, rfl, Function.update_self ..⟩

/-- Without an item, all of the list is lost. -/
theorem chop_null (m : Links α) (l : DList α) :
    Holds (l.chop m none).1 (l.chop m none).2.1 [] ∧ Holds (l.chop m none).1 (l.chop m none).2.2 [] :=
  ⟨⟨rfl, rfl⟩, ⟨rfl, rfl⟩⟩

/-! ## Other lists -/

/-- The links of an item are not written. -/
def Untouched (m m' : Links α) (a : α) : Prop := m'.next a = m.next a ∧ m'.prev a = m.prev a

section Untouched

variable {a : α}

theorem untouched_pushFront (hobj : a ≠ obj) (hhead : l.head ≠ some a) :
    Untouched m (l.pushFront m obj).1 a := by
  simp only [Untouched, DList.pushFront]
  rw [Function.update_of_ne hobj, write_of_ne hhead, Function.update_of_ne hobj]
  exact ⟨rfl, rfl⟩

theorem untouched_insertBefore (hobj : a ≠ obj) (hy : a ≠ y) :
    Untouched m (l.insertBefore m obj y).1 a := by
  simp only [Untouched, DList.insertBefore]
  rw [Function.update_of_ne hobj, Function.update_of_ne hy, Function.update_of_ne hobj]
  exact ⟨rfl, rfl⟩

theorem untouched_insertAfter (hobj : a ≠ obj) (hy : a ≠ y) :
    Untouched m (l.insertAfter m obj y).1 a :=
  (untouched_insertBefore (l := l.mirror) (m := m.mirror) hobj hy).symm

theorem untouched_erase (hnext : m.next x ≠ some a) (hprev : m.prev x ≠ some a) :
    Untouched m (l.erase m x).1 a := by
  simp only [Untouched, DList.erase, write_prev_self]
  exact ⟨write_of_ne hprev, write_of_ne hnext⟩

theorem untouched_chop (hx : a ≠ x) (hprev : m.prev x ≠ some a) :
    Untouched m (l.chop m (some x)).1 a :=
  ⟨write_of_ne hprev, Function.update_of_ne hx ..⟩

end Untouched

section Others

variable {l' : DList α} {ys : List α}

/-- An operation on one list does not change another one over other items. -/
theorem Holds.pushFront_other (h : Holds m l xs) (h' : Holds m l' ys) (hd : ∀ a ∈ ys, a ∉ xs)
    (hobj : obj ∉ ys) : Holds (l.pushFront m obj).1 l' ys :=
  h'.congr fun a ha => untouched_pushFront (fun he => hobj (he ▸ ha)) fun he =>
    hd a ha (h.linked.mem_of_head he)

theorem Holds.erase_other (h : Holds m l xs) (h' : Holds m l' ys) (hd : ∀ a ∈ ys, a ∉ xs)
    (hx : x ∈ xs) : Holds (l.erase m x).1 l' ys :=
  h'.congr fun a ha => untouched_erase (fun he => hd a ha (h.linked.mem_of_next hx he)) fun he =>
    hd a ha (h.linked.mem_of_prev hx he)

theorem Holds.chop_other (h : Holds m l xs) (h' : Holds m l' ys) (hd : ∀ a ∈ ys, a ∉ xs)
    (hx : x ∈ xs) : Holds (l.chop m (some x)).1 l' ys :=
  h'.congr fun a ha => untouched_chop (fun he => hd a ha (he ▸ hx)) fun he =>
    hd a ha (h.linked.mem_of_prev hx he)

end Others

end Operations

/-! ## Runs -/

/-- An item is on one list, once. -/
structure Apart (seqs : Nat → List α) : Prop where
  nodup : ∀ k, (seqs k).Nodup
  disjoint : ∀ j k, j ≠ k → ∀ a ∈ seqs j, a ∉ seqs k

/-- The sequence of one list changes, by items that are on no list. -/
theorem Apart.update {seqs : Nat → List α} (h : Apart seqs) {k : Nat} {ys : List α} (hnd : ys.Nodup)
    (hys : ∀ a ∈ ys, a ∈ seqs k ∨ ∀ j, a ∉ seqs j) : Apart (Function.update seqs k ys) := by
  have hother : ∀ j, j ≠ k → ∀ a ∈ seqs j, a ∉ ys := fun j hj a ha hy =>
    (hys a hy).elim (h.disjoint j k hj a ha) fun hnew => hnew j ha
  constructor
  · intro j
    by_cases hj : j = k
    · subst hj
      rwa [Function.update_self]
    · rw [Function.update_of_ne hj]
      exact h.nodup j
  · intro i j hij a ha
    by_cases hi : i = k
    · subst hi
      rw [Function.update_self] at ha
      rw [Function.update_of_ne (Ne.symm hij)]
      exact fun hj => hother j (Ne.symm hij) a hj ha
    · rw [Function.update_of_ne hi] at ha
      by_cases hj : j = k
      · subst hj
        rw [Function.update_self]
        exact hother i hi a ha
      · rw [Function.update_of_ne hj]
        exact h.disjoint i j hij a ha

/-- The end of one sequence becomes a sequence of its own. -/
theorem Apart.split {seqs : Nat → List α} (h : Apart seqs) {k into : Nat} {xs ys : List α}
    (hk : seqs k = xs ++ ys) : Apart (Function.update (Function.update seqs k xs) into ys) := by
  have hnd := h.nodup k
  rw [hk] at hnd
  obtain ⟨hxs, hys, hdisj⟩ := List.nodup_append.mp hnd
  have hin : ∀ a, a ∈ xs ∨ a ∈ ys → a ∈ seqs k := fun a ha => by
    rw [hk]
    exact List.mem_append.mpr ha
  refine (h.update hxs fun a ha => .inl (hin a (.inl ha))).update hys fun a ha => .inr fun j => ?_
  by_cases hj : j = k
  · subst hj
    rw [Function.update_self]
    exact fun hx => hdisj a hx a ha rfl
  · rw [Function.update_of_ne hj]
    exact h.disjoint k j (Ne.symm hj) a (hin a (.inr ha))

theorem nodup_insert {l1 l2 : List α} {x : α} (hnd : (l1 ++ l2).Nodup) (hx : x ∉ l1 ++ l2) :
    (l1 ++ x :: l2).Nodup :=
  (List.perm_middle.nodup_iff).mpr (List.nodup_cons.mpr ⟨hx, hnd⟩)

section Runs

variable [DecidableEq α]

/-- An operation keeps the items apart. -/
theorem Apart.onSequence {seqs : Nat → List α} (h : Apart seqs) {k : Nat} {op : Op α}
    (hop : op.Admissible seqs k) : Apart (Function.update seqs k (op.onSequence (seqs k))) := by
  have hnd := h.nodup k
  cases op with
  | pushFront item =>
    refine h.update (List.nodup_cons.mpr ⟨hop k, hnd⟩) fun a ha => ?_
    rcases List.mem_cons.mp ha with rfl | ha
    · exact .inr hop
    · exact .inl ha
  | insertBefore item before =>
    obtain ⟨hnew, hmem⟩ := hop
    obtain ⟨l1, l2, hsplit, hl1⟩ := List.eq_append_cons_of_mem hmem
    have hnewk := hnew k
    rw [hsplit] at hnd hnewk ⊢
    rw [onSequence_insertBefore hl1]
    refine h.update (nodup_insert hnd hnewk) fun a ha => ?_
    rw [List.perm_middle.mem_iff, List.mem_cons, ← hsplit] at ha
    rcases ha with rfl | ha
    · exact .inr hnew
    · exact .inl ha
  | insertAfter item after =>
    obtain ⟨hnew, hmem⟩ := hop
    obtain ⟨l1, l2, hsplit, hl1⟩ := List.eq_append_cons_of_mem hmem
    have hnewk := hnew k
    have hassoc : ∀ l : List α, l1 ++ after :: l = (l1 ++ [after]) ++ l := fun l => by simp
    rw [hsplit] at hnd hnewk ⊢
    rw [onSequence_insertAfter hl1, hassoc]
    rw [hassoc] at hnd hnewk
    refine h.update (nodup_insert hnd hnewk) fun a ha => ?_
    rw [List.perm_middle.mem_iff, List.mem_cons, ← hassoc, ← hsplit] at ha
    rcases ha with rfl | ha
    · exact .inr hnew
    · exact .inl ha
  | erase item =>
    exact h.update (hnd.erase item) fun a ha => .inl (List.mem_of_mem_erase ha)

/-- An operation does not write to the items of another list. -/
theorem Apart.untouched {seqs : Nat → List α} (h : Apart seqs) {m : Links α} {l : DList α} {op : Op α}
    {j k : Nat} (hop : op.Admissible seqs k) (hhead : ∀ b, l.head = some b → b ∈ seqs k)
    (herase : ∀ x, op = .erase x →
      (∀ b, m.next x = some b → b ∈ seqs k) ∧ ∀ b, m.prev x = some b → b ∈ seqs k)
    (hj : j ≠ k) {a : α} (ha : a ∈ seqs j) : Untouched m (op.onDList m l).1 a := by
  have hout : a ∉ seqs k := h.disjoint j k hj a ha
  have hne : ∀ b, b ∈ seqs k → a ≠ b := fun b hb he => hout (he ▸ hb)
  have hnew : ∀ b, (∀ j, b ∉ seqs j) → a ≠ b := fun b hb he => hb j (he ▸ ha)
  cases op with
  | pushFront item => exact untouched_pushFront (hnew item hop) fun he => hout (hhead a he)
  | insertBefore item before => exact untouched_insertBefore (hnew item hop.1) (hne before hop.2)
  | insertAfter item after => exact untouched_insertAfter (hnew item hop.1) (hne after hop.2)
  | erase item =>
    obtain ⟨hnext, hprev⟩ := herase item rfl
    exact untouched_erase (fun he => hout (hnext a he)) fun he => hout (hprev a he)

/-! ## Runs of `DListForward` -/

/-- What holds between two operations on forward lists. -/
structure ForwardInv (s : Lists α (DListForward α)) : Prop where
  apart : Apart s.seqs
  holds : ∀ k, Seg s.links.next (s.lists k).head (s.seqs k) none

section Forward

variable {m : Links α} {l : DListForward α} {xs : List α} {obj x y : α}

/-- The links are written as in a `DList`. -/
theorem onForward_links (m : Links α) (l : DListForward α) (op : Op α) :
    (op.onForward m l).1 = (op.onDList m ⟨l.head, none⟩).1 := by
  cases op with
  | pushFront => rfl
  | insertBefore => rfl
  | insertAfter => rfl
  | erase => rfl

theorem seg_pushFront (h : Seg m.next l.head xs none) (hobj : obj ∉ xs) :
    Seg (l.pushFront m obj).1.next (l.pushFront m obj).2.head (obj :: xs) none := by
  refine ⟨rfl, ?_⟩
  simp only [DListForward.pushFront, Function.update_self]
  exact h.frame hobj

theorem seg_insertBefore (h : Seg m.next l.head xs none) (hobj : obj ∉ xs)
    (hhead : l.head = some y) (hprev : m.prev y = none) :
    Seg (l.insertBefore m obj y).1.next (l.insertBefore m obj y).2.head
      ((Op.insertBefore obj y).onSequence xs) none := by
  obtain ⟨l2, rfl⟩ : ∃ l2, xs = y :: l2 := by
    cases xs with
    | nil => exact absurd (h.symm.trans hhead) (by simp)
    | cons a l2 => exact ⟨l2, by rw [Option.some.inj (h.1.symm.trans hhead)]⟩
  have hne : y ≠ obj := fun he => hobj (he ▸ List.mem_cons_self)
  rw [show y :: l2 = [] ++ y :: l2 from rfl, onSequence_insertBefore List.not_mem_nil]
  simp only [DListForward.insertBefore, Function.update_of_ne hne, if_pos hprev]
  refine ⟨rfl, ?_⟩
  rw [Function.update_self]
  rw [hhead] at h
  exact h.frame hobj

/-- What `InsertBefore` needs of the item. -/
theorem insertBefore_ok (h : Seg m.next l.head xs none) (hobj : obj ∉ xs) (hy : y ∈ xs)
    (h' : Seg (l.insertBefore m obj y).1.next (l.insertBefore m obj y).2.head
      ((Op.insertBefore obj y).onSequence xs) none) :
    l.head = some y ∧ m.prev y = none := by
  obtain ⟨l1, l2, rfl, hl1⟩ := List.eq_append_cons_of_mem hy
  have hne : y ≠ obj := fun he => hobj (he ▸ hy)
  rw [onSequence_insertBefore hl1] at h'
  simp only [DListForward.insertBefore, Function.update_of_ne hne] at h'
  by_cases hprev : m.prev y = none
  · rw [if_pos hprev] at h'
    refine ⟨?_, hprev⟩
    cases l1 with
    | nil => exact h.1
    | cons a l1 =>
      have : obj = a := Option.some.inj h'.1
      exact absurd (this ▸ List.mem_cons_self) hobj
  · rw [if_neg hprev] at h'
    have hsame := congrArg List.length (h'.unique (h.frame hobj))
    simp at hsame

theorem seg_insertAfter (h : Seg m.next l.head xs none) (hnd : xs.Nodup) (hobj : obj ∉ xs)
    (hy : y ∈ xs) :
    Seg (l.insertAfter m obj y).1.next (l.insertAfter m obj y).2.head
      ((Op.insertAfter obj y).onSequence xs) none := by
  obtain ⟨l1, l2, rfl, hl1⟩ := List.eq_append_cons_of_mem hy
  have hl2 : y ∉ l2 := (List.nodup_cons.mp (List.nodup_append.mp hnd).2.1).1
  have hne : obj ≠ y := fun he => hobj (he ▸ hy)
  simp only [List.mem_append, List.mem_cons, not_or] at hobj
  obtain ⟨r, hseg, rfl, hrest⟩ := Seg.append.mp h
  rw [onSequence_insertAfter hl1]
  simp only [DListForward.insertAfter]
  refine Seg.append.mpr ⟨_, (hseg.frame hobj.1).frame hl1, rfl, ?_⟩
  rw [Function.update_self]
  refine ⟨rfl, ?_⟩
  rw [Function.update_of_ne hne, Function.update_self]
  exact (hrest.frame hobj.2.2).frame hl2

theorem seg_erase (h : Seg m.next l.head xs none) (hnd : xs.Nodup) (hx : x ∈ xs)
    (hprev : m.prev x = itemBefore xs x) :
    Seg (l.erase m x).1.next (l.erase m x).2.head ((Op.erase x).onSequence xs) none := by
  obtain ⟨l1, l2, rfl, hl1⟩ := List.eq_append_cons_of_mem hx
  rw [itemBefore_split hl1] at hprev
  rw [onSequence_erase hl1]
  simp only [DListForward.erase, hprev, List.getLast?_eq_none_iff]
  exact h.unlink_mid hnd

/-- What `Erase` needs of the item. -/
theorem erase_ok (h : Seg m.next l.head xs none) (hnd : xs.Nodup) (hx : x ∈ xs)
    (h' : Seg (l.erase m x).1.next (l.erase m x).2.head ((Op.erase x).onSequence xs) none) :
    m.prev x = itemBefore xs x := by
  obtain ⟨l1, l2, rfl, hl1⟩ := List.eq_append_cons_of_mem hx
  rw [itemBefore_split hl1]
  rw [onSequence_erase hl1] at h'
  have hl2 : x ∉ l2 := (List.nodup_cons.mp (List.nodup_append.mp hnd).2.1).1
  have hnext := h.next_eq
  simp only [DListForward.erase] at h'
  cases hprev : m.prev x with
  | none =>
    -- the head is the item behind, so nothing was before
    simp only [hprev, if_true, write] at h'
    obtain ⟨r, -, -, hrest⟩ := Seg.append.mp h
    have hsame := congrArg List.length (h'.unique hrest)
    rw [List.length_append] at hsame
    have : l1 = [] := List.length_eq_zero_iff.mp (by omega)
    rw [this]
    rfl
  | some b =>
    simp only [hprev, if_neg (Option.some_ne_none b), write] at h'
    rcases List.eq_nil_or_concat l1 with rfl | ⟨l1, c, rfl⟩
    · -- the head is still the item
      have hmem := (h'.head.symm.trans h.1).symm
      exact absurd (List.mem_of_mem_head? hmem.symm) hl2
    · rw [List.concat_eq_append] at h h' hnd ⊢
      rw [List.getLast?_concat]
      by_contra hbc
      have hcb : c ≠ b := fun he => hbc (congrArg some he.symm)
      -- the item before still leads to the item
      have hc : m.next c = some x := by
        rw [List.append_assoc] at h
        exact h.next_eq
      rw [List.append_assoc] at h'
      have hc' := h'.next_eq
      rw [Function.update_of_ne hcb, hc] at hc'
      exact absurd (List.mem_of_mem_head? hc'.symm) hl2

/-- One operation does on its list what it does to the sequence exactly if it meets `ForwardOk`. -/
theorem onForward_iff {s : Lists α (DListForward α)} (h : ForwardInv s) {k : Nat} {op : Op α}
    (hop : op.Admissible s.seqs k) :
    Seg (op.onForward s.links (s.lists k)).1.next (op.onForward s.links (s.lists k)).2.head
      (op.onSequence (s.seqs k)) none ↔ ForwardOk s (k, op) := by
  have hk := h.holds k
  have hnd := h.apart.nodup k
  cases op with
  | pushFront item => exact ⟨fun _ => trivial, fun _ => seg_pushFront hk (hop k)⟩
  | insertBefore item before =>
    exact ⟨insertBefore_ok hk (hop.1 k) hop.2, fun hok => seg_insertBefore hk (hop.1 k) hok.1 hok.2⟩
  | insertAfter item after =>
    exact ⟨fun _ => trivial, fun _ => seg_insertAfter hk hnd (hop.1 k) hop.2⟩
  | erase item => exact ⟨erase_ok hk hnd hop, seg_erase hk hnd hop⟩

theorem ForwardInv.step {s : Lists α (DListForward α)} (h : ForwardInv s) {a : Nat × Op α}
    (hadm : ForwardAdmissible s a) (hok : ForwardOk s a) : ForwardInv (forwardStep s a).1 := by
  obtain ⟨k, op⟩ := a
  refine ⟨h.apart.onSequence hadm, fun j => ?_⟩
  simp only [forwardStep]
  by_cases hj : j = k
  · subst hj
    rw [Function.update_self, Function.update_self]
    exact (onForward_iff h hadm).mpr hok
  · rw [Function.update_of_ne hj, Function.update_of_ne hj]
    refine (h.holds j).congr fun a ha => ?_
    rw [onForward_links]
    refine (h.apart.untouched (l := ⟨(s.lists k).head, none⟩) hadm (fun b hb => ?_)
      (fun x hx => ?_) hj ha).1
    · have hhead := (h.holds k).head
      exact List.mem_of_mem_head? (hhead.symm.trans hb)
    · subst hx
      obtain ⟨l1, l2, hsplit, hl1⟩ := List.eq_append_cons_of_mem (show x ∈ s.seqs k from hadm)
      have hk := h.holds k
      have hprev : s.links.prev x = itemBefore (s.seqs k) x := hok
      rw [hsplit] at hk hprev ⊢
      rw [itemBefore_split hl1] at hprev
      constructor
      · intro b hb
        rw [hk.next_eq] at hb
        simp [List.mem_of_mem_head? hb]
      · intro b hb
        rw [hprev] at hb
        simp [List.mem_of_mem_getLast? hb]

omit [DecidableEq α] in
theorem ForwardInv.right {s : Lists α (DListForward α)} (h : ForwardInv s) : ForwardRight s :=
  fun k => traverses_iff.mpr (h.holds k)

theorem ForwardInv.ok_of_right {s : Lists α (DListForward α)} (h : ForwardInv s) {a : Nat × Op α}
    (hadm : ForwardAdmissible s a) (hr : ForwardRight (forwardStep s a).1) : ForwardOk s a := by
  obtain ⟨k, op⟩ := a
  have hk := traverses_iff.mp (hr k)
  simp only [forwardStep, Function.update_self] at hk
  exact (onForward_iff h hadm).mp hk

omit [DecidableEq α] in
theorem ForwardInv.initial : ForwardInv (Lists.initial (α := α) ⟨none⟩) :=
  ⟨⟨fun _ => List.nodup_nil, fun _ _ _ _ h => absurd h List.not_mem_nil⟩, fun _ => rfl⟩

end Forward

/-! ## Runs of `DList` -/

/-- What holds between two operations on lists in both directions. -/
structure DListInv (s : Lists α (DList α)) : Prop where
  apart : Apart s.seqs
  holds : ∀ k, Holds s.links (s.lists k) (s.seqs k)

section Bidirectional

variable {s : Lists α (DList α)} {k : Nat}

theorem onDList_iff (h : DListInv s) {op : Op α} (hop : op.Admissible s.seqs k) :
    Holds (op.onDList s.links (s.lists k)).1 (op.onDList s.links (s.lists k)).2
      (op.onSequence (s.seqs k)) ↔ DListOk s (k, .common op) := by
  have hk := h.holds k
  have hnd := h.apart.nodup k
  cases op with
  | pushFront item => exact ⟨fun _ => trivial, fun _ => hk.pushFront hnd (hop k)⟩
  | insertBefore item before =>
    exact ⟨fun h' => by_contra fun hne => not_insertBefore hk (hop.1 k) hop.2 hne h',
      hk.insertBefore hnd (hop.1 k)⟩
  | insertAfter item after =>
    exact ⟨fun h' => by_contra fun hne => not_insertAfter hk hnd (hop.1 k) hop.2 hne h',
      hk.insertAfter hnd (hop.1 k)⟩
  | erase item => exact ⟨fun _ => trivial, fun _ => hk.erase hnd hop⟩

theorem pushBack_iff (h : DListInv s) {item : α} (hop : ∀ j, item ∉ s.seqs j) :
    Holds ((s.lists k).pushBack s.links item).1 ((s.lists k).pushBack s.links item).2
      (s.seqs k ++ [item]) ↔ DListOk s (k, .pushBack item) :=
  ⟨fun h' => by_contra fun hne => not_pushBack (h.holds k) (h.apart.nodup k) (hop k) hne h',
    (h.holds k).pushBack_of_empty (hop k)⟩

omit [DecidableEq α] in
/-- The lists whose items an operation does not write to. -/
theorem DListInv.frame (h : DListInv s) {m' : Links α} {j : Nat}
    (hm : ∀ a ∈ s.seqs j, Untouched s.links m' a) : Holds m' (s.lists j) (s.seqs j) :=
  (h.holds j).congr hm

theorem DListInv.untouched (h : DListInv s) {op : Op α} (hop : op.Admissible s.seqs k) {j : Nat}
    (hj : j ≠ k) {a : α} (ha : a ∈ s.seqs j) :
    Untouched s.links (op.onDList s.links (s.lists k)).1 a := by
  have hlinked := (h.holds k).linked
  refine h.apart.untouched hop (fun b hb => hlinked.mem_of_head hb) (fun x hx => ?_) hj ha
  subst hx
  exact ⟨fun b hb => hlinked.mem_of_next hop hb, fun b hb => hlinked.mem_of_prev hop hb⟩

theorem DListInv.step (h : DListInv s) {a : Nat × DListOp α} (hadm : DListAdmissible s a)
    (hok : DListOk s a) : DListInv (dlistStep s a).1 := by
  obtain ⟨k, op⟩ := a
  cases op with
  | common op =>
    refine ⟨h.apart.onSequence hadm, fun j => ?_⟩
    simp only [dlistStep]
    by_cases hj : j = k
    · subst hj
      rw [Function.update_self, Function.update_self]
      exact (onDList_iff h hadm).mpr hok
    · rw [Function.update_of_ne hj, Function.update_of_ne hj]
      exact h.frame fun a ha => h.untouched hadm hj ha
  | pushBack item =>
    have hnew : ∀ j, item ∉ s.seqs j := hadm
    constructor
    · refine h.apart.update ?_ fun a ha => ?_
      · exact List.nodup_append.mpr ⟨h.apart.nodup k, List.nodup_singleton _, fun a ha b hb he =>
          hnew k (List.mem_singleton.mp hb ▸ he ▸ ha)⟩
      · rcases List.mem_append.mp ha with ha | ha
        · exact .inl ha
        · exact .inr (List.mem_singleton.mp ha ▸ hnew)
    · intro j
      simp only [dlistStep]
      by_cases hj : j = k
      · subst hj
        rw [Function.update_self, Function.update_self]
        exact (pushBack_iff h hnew).mpr hok
      · rw [Function.update_of_ne hj, Function.update_of_ne hj]
        -- the macro is that of `PushFront`
        have hfront : (Op.pushFront item).Admissible s.seqs k := hnew
        exact h.frame fun a ha => h.untouched hfront hj ha
  | chop item into =>
    obtain ⟨hmem, hinto⟩ := hadm
    have hne : into ≠ k := by
      rintro rfl
      rw [hinto] at hmem
      exact absurd hmem List.not_mem_nil
    obtain ⟨l1, l2, hsplit, hl1⟩ := List.eq_append_cons_of_mem hmem
    have hnd := h.apart.nodup k
    have hk := h.holds k
    rw [hsplit] at hnd hk
    obtain ⟨hkeep, hcut⟩ := hk.chop hnd
    simp only [dlistStep, hsplit, takeWhile_split hl1, dropWhile_split hl1]
    refine ⟨h.apart.split hsplit, fun j => ?_⟩
    dsimp only
    by_cases hi : j = into
    · subst hi
      rw [Function.update_self, Function.update_self]
      exact hcut
    · rw [Function.update_of_ne hi, Function.update_of_ne hi]
      by_cases hj : j = k
      · subst hj
        rw [Function.update_self, Function.update_self]
        exact hkeep
      · rw [Function.update_of_ne hj, Function.update_of_ne hj]
        refine h.frame fun a ha => untouched_chop (fun he => ?_) fun he => ?_
        · exact h.apart.disjoint j k hj a ha (he ▸ hmem)
        · exact h.apart.disjoint j k hj a ha ((h.holds k).linked.mem_of_prev hmem he)

omit [DecidableEq α] in
theorem dlistRight_iff : DListRight s ↔ ∀ k, Holds s.links (s.lists k) (s.seqs k) :=
  forall_congr' fun _ => ⟨fun h => ⟨traverses_iff.mp h.1, traverses_iff.mp h.2⟩, fun h =>
    ⟨traverses_iff.mpr h.forward, traverses_iff.mpr h.backward⟩⟩

theorem DListInv.ok_of_right (h : DListInv s) {a : Nat × DListOp α} (hadm : DListAdmissible s a)
    (hr : DListRight (dlistStep s a).1) : DListOk s a := by
  obtain ⟨k, op⟩ := a
  have hk := dlistRight_iff.mp hr k
  cases op with
  | common op =>
    simp only [dlistStep, Function.update_self] at hk
    exact (onDList_iff h hadm).mp hk
  | pushBack item =>
    simp only [dlistStep, Function.update_self] at hk
    exact (pushBack_iff h hadm).mp hk
  | chop item into => trivial

omit [DecidableEq α] in
theorem DListInv.initial : DListInv (Lists.initial (α := α) ⟨none, none⟩) :=
  ⟨⟨fun _ => List.nodup_nil, fun _ _ _ _ h => absurd h List.not_mem_nil⟩, fun _ => ⟨rfl, rfl⟩⟩

end Bidirectional

theorem dlist_iff (ops : List (Nat × DListOp α))
    (hadm : Run.Guarded dlistStep DListAdmissible (Lists.initial ⟨none, none⟩) ops) :
    (∀ n, DListRight (Run.exec dlistStep (Lists.initial ⟨none, none⟩) (ops.take n)).1) ↔
      Run.Guarded dlistStep DListOk (Lists.initial ⟨none, none⟩) ops :=
  Run.holds_iff_guarded (fun _ h => dlistRight_iff.mpr h.holds)
    (fun _ _ h hadm hok => h.step hadm hok) (fun _ _ h hadm hr => h.ok_of_right hadm hr) ops _
    DListInv.initial hadm

theorem forward_iff (ops : List (Nat × Op α))
    (hadm : Run.Guarded forwardStep ForwardAdmissible (Lists.initial ⟨none⟩) ops) :
    (∀ n, ForwardRight (Run.exec forwardStep (Lists.initial ⟨none⟩) (ops.take n)).1) ↔
      Run.Guarded forwardStep ForwardOk (Lists.initial ⟨none⟩) ops :=
  Run.holds_iff_guarded (fun _ h => h.right) (fun _ _ h hadm hok => h.step hadm hok)
    (fun _ _ h hadm hr => h.ok_of_right hadm hr) ops _ ForwardInv.initial hadm

/-- **Any run of operations** on doubly linked lists: the traversals are what the same operations make
of sequences, in every state that is reached, exactly if `PushBack` is called on empty lists only,
`InsertBefore` before the first item and `InsertAfter` behind the last one; for forward lists, exactly
if `InsertBefore` is called before a first item, and `Erase` only for items that point back to the one
before. -/
theorem list_operations (ops : List (Nat × DListOp α)) (forwardOps : List (Nat × Op α))
    (hadm : Run.Guarded dlistStep DListAdmissible (Lists.initial ⟨none, none⟩) ops)
    (hforward : Run.Guarded forwardStep ForwardAdmissible (Lists.initial ⟨none⟩) forwardOps) :
    ((∀ n, DListRight (Run.exec dlistStep (Lists.initial ⟨none, none⟩) (ops.take n)).1) ↔
      Run.Guarded dlistStep DListOk (Lists.initial ⟨none, none⟩) ops) ∧
    ((∀ n, ForwardRight (Run.exec forwardStep (Lists.initial ⟨none⟩) (forwardOps.take n)).1) ↔
      Run.Guarded forwardStep ForwardOk (Lists.initial ⟨none⟩) forwardOps) :=
  ⟨dlist_iff ops hadm, forward_iff forwardOps hforward⟩

end Runs

end Spec

section Example

/-- Two items at the front and one before them; what was first goes to another list. -/
theorem list_operations_chop :
    let ops : List (Nat × DListOp Nat) := [(0, .common (.pushFront 1)), (0, .common (.pushFront 2)),
      (0, .common (.insertBefore 3 2)), (0, .chop 2 1)]
    ∀ n, DListRight (Run.exec dlistStep (Lists.initial ⟨none, none⟩) (ops.take n)).1 := by
  refine (list_operations _ [] ?_ trivial).1.mpr ⟨trivial, trivial, rfl, trivial, trivial⟩
  refine ⟨fun j => List.not_mem_nil, fun j => ?_, ⟨fun j => ?_, by decide⟩, ⟨by decide, by decide⟩, trivial⟩
  · rcases j with _ | j
    · decide
    · exact List.not_mem_nil
  · rcases j with _ | j
    · decide
    · exact List.not_mem_nil

/-- Two items at the back come out in the wrong order, an item between two others is missing from one
traversal, and in a forward list an item is lost with the `Erase` of the one behind. -/
theorem not_list_operations :
    (¬ ∀ n, DListRight (Run.exec dlistStep (Lists.initial (α := Nat) ⟨none, none⟩)
      (List.take n [(0, .common (.pushFront 1)), (0, .pushBack 2)])).1) ∧
    (¬ ∀ n, DListRight (Run.exec dlistStep (Lists.initial (α := Nat) ⟨none, none⟩)
      (List.take n [(0, .common (.pushFront 1)), (0, .common (.pushFront 2)),
        (0, .common (.insertBefore 3 1))])).1) ∧
    (¬ ∀ n, DListRight (Run.exec dlistStep (Lists.initial (α := Nat) ⟨none, none⟩)
      (List.take n [(0, .common (.pushFront 1)), (0, .common (.pushFront 2)),
        (0, .common (.insertAfter 3 2))])).1) ∧
    ¬ ∀ n, ForwardRight (Run.exec forwardStep (Lists.initial (α := Nat) ⟨none⟩)
      (List.take n [(0, .pushFront 1), (0, .pushFront 2), (0, .insertAfter 3 2), (0, .erase 1)])).1 := by
  have hnew : ∀ (xs : List Nat) (x j : Nat), x ∉ xs →
      x ∉ Function.update (fun _ => ([] : List Nat)) 0 xs j := fun xs x j hx => by
    rcases j with _ | j
    · exact hx
    · exact List.not_mem_nil
  have hnew2 : ∀ (xs ys : List Nat) (x j : Nat), x ∉ ys →
      x ∉ Function.update (Function.update (fun _ => ([] : List Nat)) 0 xs) 0 ys j := fun xs ys x j hx => by
    rw [Function.update_idem]
    exact hnew ys x j hx
  refine ⟨fun h => ?_, fun h => ?_, fun h => ?_, fun h => ?_⟩
  · have hok := (dlist_iff [(0, .common (.pushFront 1)), (0, .pushBack 2)]
      ⟨fun _ => List.not_mem_nil, fun j => hnew [1] 2 j (by decide), trivial⟩).mp h
    exact Option.some_ne_none 1 hok.2.1
  · have hok := (dlist_iff [(0, .common (.pushFront 1)), (0, .common (.pushFront 2)),
        (0, .common (.insertBefore 3 1))]
      ⟨fun _ => List.not_mem_nil, fun j => hnew [1] 2 j (by decide),
        ⟨fun j => hnew2 [1] [2, 1] 3 j (by decide), by decide⟩, trivial⟩).mp h
    exact absurd (show some 2 = some 1 from hok.2.2.1) (by decide)
  · have hok := (dlist_iff [(0, .common (.pushFront 1)), (0, .common (.pushFront 2)),
        (0, .common (.insertAfter 3 2))]
      ⟨fun _ => List.not_mem_nil, fun j => hnew [1] 2 j (by decide),
        ⟨fun j => hnew2 [1] [2, 1] 3 j (by decide), by decide⟩, trivial⟩).mp h
    exact absurd (show some 1 = some 2 from hok.2.2.1) (by decide)
  · have hok := (forward_iff [(0, .pushFront 1), (0, .pushFront 2), (0, .insertAfter 3 2), (0, .erase 1)]
      ⟨fun _ => List.not_mem_nil, fun j => hnew [1] 2 j (by decide),
        ⟨fun j => hnew2 [1] [2, 1] 3 j (by decide), by decide⟩,
        (by change 1 ∈ _; decide), trivial⟩).mp h
    exact absurd (show some 2 = some 3 from hok.2.2.2.1) (by decide)

end Example

end Libcat.Lang.LinkedLists
