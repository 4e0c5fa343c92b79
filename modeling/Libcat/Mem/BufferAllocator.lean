import Libcat.Lib.Run
import Libcat.Mem.FreeLists

/-!
# The batch allocators

`AcquireBatch` and `ReleaseBatch` of `BufferAllocator` and `FileWriteAllocator`, which differ in their
constructors only, by any number of callers in any order. `AcquireBatch` holds the acquire lock from its
first step to its last one, and takes the release lock in the middle of it.

`Divided` says what a call that returns has done: the acquire list and what it has stolen of the release
list, in one list, is cut into the batch and the new acquire list.
-/

namespace Libcat.Mem.BufferAllocator

open Intrusive

variable {τ : Type}

section Model

/-- An allocator that is constructed: `BufferAllocator` with its `buffer_count`, `FileWriteAllocator` with
what the settings say. -/
inductive Allocator where
  | buffer (bufferCount : Nat)
  | fileWrite (setting : Int)

def minBufferCount : Int := 10
def maxBufferCount : Int := 10000

def Allocator.bufferCount : Allocator → Nat
  | .buffer bufferCount => if bufferCount < 4 then 4 else bufferCount
  | .fileWrite setting =>
    (if setting < minBufferCount then minBufferCount
      else if maxBufferCount < setting then maxBufferCount else setting).toNat

/-- The loop of the constructors: the pointers and `tail`. -/
def linkNode (r : (Nat → Option Nat) × Nat) (node : Nat) : (Nat → Option Nat) × Nat :=
  (Function.update r.1 r.2 (some node), node)

/-- Linked list of free nodes. -/
def linkNodes (next : Nat → Option Nat) (bufferCount : Nat) : Nat → Option Nat :=
  let r := (List.range' 1 (bufferCount - 1)).foldl linkNode (next, 0)
  Function.update r.1 r.2 none

/-- The locals of an `AcquireBatch` that goes on to the release list; `nodes` are those from `set.head`
to `last`. -/
structure Call where
  count : Nat
  ii : Nat
  head : Option Nat
  last : Option Nat
  nodes : List Nat

/-- The next step of a call. -/
inductive Pc where
  | idle
  | lookRelease (c : Call)
  | lockRelease (c : Call)
  | join (c : Call) (node : Nat)

structure Pool (τ : Type) where
  next : Nat → Option Nat
  acquireHead : Option Nat
  releaseHead : Option Nat
  acquireLock : Option τ
  pc : τ → Pc
  hands : τ → List Nat

/-- What `AcquireBatch` returns, with the count it was called with. -/
structure Returned (τ : Type) where
  caller : τ
  count : Nat
  ii : Nat
  set : BatchSet Nat

/-- The start of an `AcquireBatch`, a further step of it, a whole `ReleaseBatch`, or what a caller does
with its buffers. -/
inductive Action (τ : Type) where
  | acquireBatch (t : τ) (count : Nat)
  | resume (t : τ)
  | release (t : τ) (set : BatchSet Nat) (batch : List Nat)
  | write (t : τ) (buffer : Nat) (value : Option Nat)
  | pass (t t' : τ) (buffer : Nat)

def initial (k : Allocator) (next : Nat → Option Nat) : Pool τ where
  next := linkNodes next k.bufferCount
  acquireHead := some 0
  releaseHead := none
  acquireLock := none
  pc := fun _ => .idle
  hands := fun _ => []

/-- A loop over the list from `last`: how many it counted, where it stopped, the `next` it stopped with if
it is done, and the nodes it went through. -/
structure Walk where
  ii : Nat
  last : Nat
  next : Option (Option Nat)
  nodes : List Nat

/-- The loops of `AcquireBatch`, with `count - ii` items to go. -/
def walk (next : Nat → Option Nat) : Nat → Nat → Walk
  | 0, last | 1, last => ⟨1, last, some (next last), [last]⟩
  | n + 2, last =>
    match next last with
    | none => ⟨1, last, none, [last]⟩
    | some a =>
      let w := walk next (n + 1) a
      { w with ii := w.ii + 1, nodes := last :: w.nodes }

variable [DecidableEq τ]

def Pool.goto (s : Pool τ) (t : τ) (pc : Pc) : Pool τ := { s with pc := Function.update s.pc t pc }

/-- The end of a call: the lock is released. -/
def Pool.give (s : Pool τ) (t : τ) (nodes : List Nat) (r : Returned τ) : Pool τ × List (Returned τ) :=
  ({ s.goto t .idle with
      acquireLock := none
      hands := Function.update s.hands t (nodes ++ s.hands t) }, [r])

/-- `AcquireBatch` up to the end of the acquire list. -/
def acquireBatch (s : Pool τ) (t : τ) (count : Nat) : Pool τ × List (Returned τ) :=
  match s.pc t, s.acquireLock, s.acquireHead with
  | .idle, none, none =>
    (({ s with acquireLock := some t }).goto t (.lookRelease ⟨count, 0, none, none, []⟩), [])
  | .idle, none, some last =>
    let w := walk s.next count last
    match w.next with
    | some next =>
      ({ s with
        next := Function.update s.next w.last none
        acquireHead := next }).give t w.nodes ⟨t, count, w.ii, ⟨some last, some w.last⟩⟩
    | none =>
      (({ s with acquireLock := some t }).goto t
        (.lookRelease ⟨count, w.ii, some last, some w.last, w.nodes⟩), [])
  | _, _, _ => (s, [])

/-- Both lists ran out. -/
def finish (s : Pool τ) (t : τ) (c : Call) : Pool τ × List (Returned τ) :=
  ({ s with acquireHead := none }).give t c.nodes ⟨t, c.count, c.ii, ⟨c.head, c.last⟩⟩

/-- `AcquireBatch` from the end of the acquire list on. -/
def resume (s : Pool τ) (t : τ) : Pool τ × List (Returned τ) :=
  match s.pc t with
  | .idle => (s, [])
  | .lookRelease c => if s.releaseHead.isSome then (s.goto t (.lockRelease c), []) else finish s t c
  | .lockRelease c =>
    match s.releaseHead with
    | none => finish s t c
    | some node => (({ s with releaseHead := none }).goto t (.join c node), [])
  | .join c node =>
    let next := write s.next c.last (some node)
    let head := if c.last.isSome then c.head else some node
    let w := walk next (c.count - c.ii) node
    match w.next with
    | some rest =>
      ({ s with
        next := Function.update next w.last none
        acquireHead := rest }).give t (c.nodes ++ w.nodes)
          ⟨t, c.count, c.ii + w.ii, ⟨head, some w.last⟩⟩
    | none =>
      ({ s with
        next := next
        acquireHead := none }).give t (c.nodes ++ w.nodes)
          ⟨t, c.count, c.ii + w.ii, ⟨head, some w.last⟩⟩

/-- `ReleaseBatch`. -/
def releaseBatch (s : Pool τ) (t : τ) (set : BatchSet Nat) (batch : List Nat) : Pool τ :=
  let r := set.release s.next s.releaseHead
  { s with
    next := r.1
    releaseHead := r.2
    hands := Function.update s.hands t ((s.hands t).filter (· ∉ batch)) }

def step (s : Pool τ) : Action τ → Pool τ × List (Returned τ)
  | .acquireBatch t count => acquireBatch s t count
  | .resume t => resume s t
  | .release t set batch => (releaseBatch s t set batch, [])
  | .write _ buffer value => ({ s with next := Function.update s.next buffer value }, [])
  | .pass t t' buffer =>
    ({ s with
      hands := Function.update (Function.update s.hands t ((s.hands t).erase buffer)) t'
        (buffer :: s.hands t') }, [])

/-- Callers ask for at least one buffer; they release, write to and pass on what they have. -/
def Admissible (s : Pool τ) : Action τ → Prop
  | .acquireBatch _ count => 0 < count
  | .resume _ => True
  | .release t set batch => BatchSet.Holds s.next set batch ∧ ∀ a ∈ batch, a ∈ s.hands t
  | .write t buffer _ => buffer ∈ s.hands t
  | .pass t t' buffer => t ≠ t' ∧ buffer ∈ s.hands t

instance (s : Pool τ) : ∀ action, Decidable (Admissible s action)
  | .acquireBatch _ _ => inferInstanceAs (Decidable (_ < _))
  | .resume _ => inferInstanceAs (Decidable True)
  | .release _ _ _ => inferInstanceAs (Decidable (_ ∧ _))
  | .write _ _ _ => inferInstanceAs (Decidable (_ ∈ _))
  | .pass _ _ _ => inferInstanceAs (Decidable (_ ∧ _))

end Model

/-! ## What is claimed -/

/-- What a call has stolen of the release list. -/
def Pc.stolen : Pc → Option Nat
  | .join _ node => some node
  | _ => none

def Pool.lists (s : Pool τ) : FreeLists τ where
  next := s.next
  acquireHead := s.acquireHead
  releaseHead := s.releaseHead
  stolen := fun t => (s.pc t).stolen
  hands := s.hands

/-- The acquire list and what the call has stolen, in one list, are divided into the batch, which is what
the caller gets, and the rest. The batch is shorter than asked for only if both lists have run out. -/
def Divided (s s' : Pool τ) (r : Returned τ) : Prop :=
  ∃ acq sto, Seg s.next s.acquireHead acq none ∧ Seg s.next (s.pc r.caller).stolen sto none ∧
    r.ii = min r.count (acq ++ sto).length ∧
    BatchSet.Holds s'.next r.set ((acq ++ sto).take r.ii) ∧
    s'.hands r.caller = (acq ++ sto).take r.ii ++ s.hands r.caller ∧
    Seg s'.next s'.acquireHead ((acq ++ sto).drop r.ii) none ∧
    (r.ii < r.count → sto ≠ [] ∨ s.releaseHead = none)

/-- **What is claimed** of every state of an allocator with `bufferCount` buffers. -/
structure Sound [DecidableEq τ] (bufferCount : Nat) (s : Pool τ) : Prop where
  kept : Kept s.lists (· < bufferCount)
  divided : ∀ action, Admissible s action → ∀ r ∈ (step s action).2, Divided s (step s action).1 r

/-! ## The constructor -/

theorem seg_linkNodes (next : Nat → Option Nat) {bufferCount : Nat} (h : 0 < bufferCount) :
    Seg (linkNodes next bufferCount) (some 0) (List.range bufferCount) none := by
  obtain ⟨n, rfl⟩ : ∃ n, bufferCount = n + 1 := ⟨bufferCount - 1, by omega⟩
  have hloop : ∀ n, ((List.range' 1 n).foldl linkNode (next, 0)).2 = n ∧
      Seg (linkNodes next (n + 1)) (some 0) (List.range (n + 1)) none := by
    intro n
    induction n with
    | zero => exact ⟨rfl, rfl, by simp [linkNodes, Seg]⟩
    | succ n ih =>
      obtain ⟨htail, hseg⟩ := ih
      simp only [linkNodes, Nat.add_sub_cancel] at hseg ⊢
      have hlast : (List.range' 1 (n + 1)).foldl linkNode (next, 0) =
          linkNode ((List.range' 1 n).foldl linkNode (next, 0)) (n + 1) := by
        rw [List.range'_concat, List.foldl_append, Nat.one_mul, Nat.add_comm 1 n]
        rfl
      refine ⟨by rw [hlast]; rfl, ?_⟩
      rw [hlast]
      simp only [linkNode]
      rw [List.range_succ] at hseg
      have hsnoc := hseg.snoc (v := n + 1) hseg.nodup (by simp)
      rw [htail, Function.update_idem] at hsnoc
      rw [List.range_succ, List.range_succ, htail]
      exact hsnoc
  exact (hloop n).2

/-! ## The loops -/

section Walk

variable {next : Nat → Option Nat}

/-- A loop stops where the count is reached, or at the end of the list. -/
theorem walk_spec {n a : Nat} {l : List Nat} (hn : 0 < n) (h : Seg next (some a) (a :: l) none) :
    (∃ pre t post, a :: l = pre ++ [t] ++ post ∧ (pre ++ [t]).length = n ∧
      walk next n a = ⟨n, t, some (next t), pre ++ [t]⟩) ∨
    (∃ pre t, a :: l = pre ++ [t] ∧ (a :: l).length < n ∧
      walk next n a = ⟨(a :: l).length, t, none, a :: l⟩) := by
  induction l generalizing n a with
  | nil =>
    have hnext : next a = none := h.2
    match n, hn with
    | 1, _ => exact .inl ⟨[], a, [], rfl, rfl, rfl⟩
    | n + 2, _ => exact .inr ⟨[], a, rfl, by simp, by simp [walk, hnext]⟩
  | cons b l ih =>
    obtain ⟨-, hb⟩ := h
    have hnext : next a = some b := hb.1
    match n, hn with
    | 1, _ => exact .inl ⟨[], a, b :: l, rfl, rfl, rfl⟩
    | n + 2, _ =>
      rw [hnext] at hb
      rcases ih (Nat.succ_pos n) hb with ⟨pre, t, post, hl, hlen, hw⟩ | ⟨pre, t, hl, hlen, hw⟩
      · refine .inl ⟨a :: pre, t, post, by rw [hl]; rfl, by simpa using hlen, ?_⟩
        simp [walk, hnext, hw]
      · refine .inr ⟨a :: pre, t, by rw [hl]; rfl, by simpa using hlen, ?_⟩
        simp [walk, hnext, hw]

end Walk

/-! ## The invariant -/

/-- The locals of a call that has gone through the acquire list. -/
def Pc.call : Pc → Option Call
  | .idle => none
  | .lookRelease c | .lockRelease c | .join c _ => some c

/-- The call has gone through the whole list and wants more. -/
structure RanOut (acquireHead : Option Nat) (acq : List Nat) (c : Call) : Prop where
  head : c.head = acquireHead
  last : c.last = acq.getLast?
  ii : c.ii = acq.length
  nodes : c.nodes = acq
  lt : c.ii < c.count

structure Invariant (bufferCount : Nat) (s : Pool τ) (P : Place τ → List Nat) : Prop where
  lists : Lists s.lists (· < bufferCount) P
  lost : P .lost = []
  holder : ∀ t, s.pc t ≠ .idle → s.acquireLock = some t
  ranOut : ∀ t c, (s.pc t).call = some c → RanOut s.acquireHead (P .acquire) c

section Steps

variable [DecidableEq τ] {s : Pool τ} {P : Place τ → List Nat} {t : τ} {bufferCount : Nat}

theorem lists_goto {pc : Pc} {lock : Option τ} (hpc : pc.stolen = (s.pc t).stolen) :
    (({ s with acquireLock := lock } : Pool τ).goto t pc).lists = s.lists := by
  simp only [Pool.lists, Pool.goto, FreeLists.mk.injEq, true_and, and_true]
  funext t'
  by_cases ht : t' = t
  · rw [ht, Function.update_self, hpc]
  · rw [Function.update_of_ne ht]

theorem lists_steal {c : Call} {node : Nat} (hhead : s.releaseHead = some node) :
    (({ s with releaseHead := none } : Pool τ).goto t (.join c node)).lists = s.lists.steal t := by
  simp only [Pool.lists, Pool.goto, FreeLists.steal, FreeLists.mk.injEq, true_and, and_true]
  funext t'
  by_cases ht : t' = t
  · rw [ht, Function.update_self, Function.update_self, hhead]
    rfl
  · rw [Function.update_of_ne ht, Function.update_of_ne ht]

theorem lists_give {next : Nat → Option Nat} {acquireHead : Option Nat} {nodes : List Nat}
    {r : Returned τ} :
    (({ s with
        next := next
        acquireHead := acquireHead } : Pool τ).give t nodes r).1.lists =
      s.lists.give next acquireHead t nodes := by
  simp only [Pool.lists, Pool.give, Pool.goto, FreeLists.give, FreeLists.mk.injEq, true_and, and_true]
  funext t'
  by_cases ht : t' = t
  · rw [ht, Function.update_self, Function.update_self]
    rfl
  · rw [Function.update_of_ne ht, Function.update_of_ne ht]

namespace Invariant

omit [DecidableEq τ] in
/-- While a call holds the lock, or the lock is free, there is no other call. -/
theorem others_idle (h : Invariant bufferCount s P) (ht : s.acquireLock = none ∨ s.pc t ≠ .idle) {t' : τ}
    (ht' : t' ≠ t) : s.pc t' = .idle := by
  by_contra hpc
  have hother := h.holder t' hpc
  rcases ht with hfree | hpct
  · rw [hfree] at hother
    cases hother
  · rw [h.holder t hpct] at hother
    exact ht' (Option.some.inj hother).symm

/-- A call ends, with the two lists divided. -/
theorem give (h : Invariant bufferCount s P) (ht : s.acquireLock = none ∨ s.pc t ≠ .idle)
    {sto nodes : List Nat} {next : Nat → Option Nat} {acquireHead : Option Nat} {r : Returned τ}
    (hr : r.caller = t) (hs : Seg s.next (s.pc t).stolen sto none)
    (hnext : ∀ b, b ∉ P .acquire → b ∉ sto → next b = s.next b)
    (hii : r.ii = min r.count (P .acquire ++ sto).length)
    (hnodes : nodes = (P .acquire ++ sto).take r.ii) (hset : BatchSet.Holds next r.set nodes)
    (hrest : Seg next acquireHead ((P .acquire ++ sto).drop r.ii) none)
    (hshort : r.ii < r.count → sto ≠ [] ∨ s.releaseHead = none) :
    let q := ({ s with next := next, acquireHead := acquireHead } : Pool τ).give t nodes r
    (∃ Q, Invariant bufferCount q.1 Q) ∧ ∀ r ∈ q.2, Divided s q.1 r := by
  subst hr hnodes
  intro q
  obtain ⟨Q, hQ, hQacq, hQlost⟩ := h.lists.give (t := r.caller) hs hnext
    (List.Perm.of_eq (List.take_append_drop r.ii _).symm) hrest
  have hidle : ∀ t, q.1.pc t = .idle := by
    intro t
    by_cases htr : t = r.caller
    · subst htr
      exact Function.update_self _ _ _
    · exact (Function.update_of_ne htr _ _).trans (h.others_idle ht htr)
  refine ⟨⟨Q, ?_, hQlost.trans h.lost, fun t hpc => absurd (hidle t) hpc, fun t c hc => ?_⟩, ?_⟩
  · simp only [q, lists_give]
    exact hQ
  · rw [hidle t] at hc
    cases hc
  · intro r' hr'
    obtain rfl : r' = r := by simpa [q, Pool.give] using hr'
    exact ⟨P .acquire, sto, h.lists.acquire, hs, hii, hset, Function.update_self _ _ _, hrest, hshort⟩

/-- The count was reached at `x`. -/
theorem give_cut (h : Invariant bufferCount s P) (ht : s.acquireLock = none ∨ s.pc t ≠ .idle)
    {sto pre post : List Nat} {x count : Nat} {next : Nat → Option Nat} {head : Option Nat}
    (hs : Seg s.next (s.pc t).stolen sto none)
    (hnext : ∀ b, b ∉ P .acquire → b ∉ sto → next b = s.next b)
    (hlist : P .acquire ++ sto = pre ++ [x] ++ post) (hseg : Seg next head (P .acquire ++ sto) none)
    (hcount : (pre ++ [x]).length = count) :
    let q := ({ s with next := Function.update next x none, acquireHead := next x } : Pool τ).give t
      (pre ++ [x]) ⟨t, count, count, ⟨head, some x⟩⟩
    (∃ Q, Invariant bufferCount q.1 Q) ∧ ∀ r ∈ q.2, Divided s q.1 r := by
  have hcut := hseg
  rw [hlist] at hcut
  obtain ⟨hbatch, hpost⟩ := hcut.cutAfter
  have htake : (P .acquire ++ sto).take count = pre ++ [x] := by
    rw [hlist, ← hcount, List.take_left]
  have hdrop : (P .acquire ++ sto).drop count = post := by
    rw [hlist, ← hcount, List.drop_left]
  refine h.give ht rfl hs (fun b hb hb' => ?_) ?_ htake.symm ⟨hbatch, by simp⟩ ?_ fun hlt => ?_
  · have hx : x ∈ P .acquire ++ sto := by simp [hlist]
    have hbx : b ≠ x := by
      rintro rfl
      exact (List.mem_append.mp hx).elim hb hb'
    rw [Function.update_of_ne hbx]
    exact hnext b hb hb'
  · rw [hlist, List.length_append, hcount]
    simp
  · rw [hdrop]
    exact hpost
  · exact absurd hlt (Nat.lt_irrefl _)

/-- The two lists ran out. -/
theorem give_all (h : Invariant bufferCount s P) (ht : s.acquireLock = none ∨ s.pc t ≠ .idle)
    {sto : List Nat} {count ii : Nat} {next : Nat → Option Nat} {set : BatchSet Nat}
    (hs : Seg s.next (s.pc t).stolen sto none)
    (hnext : ∀ b, b ∉ P .acquire → b ∉ sto → next b = s.next b)
    (hset : BatchSet.Holds next set (P .acquire ++ sto)) (hii : ii = (P .acquire ++ sto).length)
    (hlt : ii < count) (hshort : sto ≠ [] ∨ s.releaseHead = none) :
    let q := ({ s with next := next, acquireHead := none } : Pool τ).give t (P .acquire ++ sto)
      ⟨t, count, ii, set⟩
    (∃ Q, Invariant bufferCount q.1 Q) ∧ ∀ r ∈ q.2, Divided s q.1 r := by
  refine h.give ht rfl hs hnext ?_ ?_ hset ?_ fun _ => hshort
  · simp only [← hii]
    omega
  · simp only [hii, List.take_length]
  · simp only [hii, List.drop_length]
    rfl

/-- A call goes on, or waits. -/
theorem goto (h : Invariant bufferCount s P) (hlock : s.acquireLock = none ∨ s.pc t ≠ .idle) {pc : Pc}
    {c : Call} (hpc : pc.stolen = (s.pc t).stolen) (hcall : pc.call = some c)
    (hc : RanOut s.acquireHead (P .acquire) c) :
    Invariant bufferCount (({ s with acquireLock := some t } : Pool τ).goto t pc) P where
  lists := by
    rw [lists_goto hpc]
    exact h.lists
  lost := h.lost
  holder t' hne := by
    by_cases ht : t' = t
    · rw [ht]
      rfl
    · have hidle := h.others_idle hlock ht
      exact absurd ((Function.update_of_ne ht _ _).trans hidle) hne
  ranOut t' c' hc' := by
    by_cases ht : t' = t
    · subst ht
      simp only [Pool.goto, Function.update_self] at hc'
      rw [hcall] at hc'
      obtain rfl := Option.some.inj hc'
      exact hc
    · simp only [Pool.goto, Function.update_of_ne ht] at hc'
      exact h.ranOut t' c' hc'

theorem acquireBatch (h : Invariant bufferCount s P) {count : Nat} (hcount : 0 < count) :
    (∃ Q, Invariant bufferCount (acquireBatch s t count).1 Q) ∧
      ∀ r ∈ (acquireBatch s t count).2, Divided s (acquireBatch s t count).1 r := by
  have hacq : Seg s.next s.acquireHead (P .acquire) none := h.lists.acquire
  unfold BufferAllocator.acquireBatch
  split
  · -- the acquire list was empty
    rename_i hpc hlock hhead
    refine ⟨⟨P, h.goto (.inl hlock) (by rw [hpc]; rfl) rfl ?_⟩, by simp⟩
    rw [hhead] at hacq
    have hnil := Seg.unique hacq (m := []) rfl
    exact ⟨hhead.symm, by rw [hnil]; rfl, by rw [hnil]; rfl, hnil.symm, hcount⟩
  · rename_i last hpc hlock hhead
    have hstolen : Seg s.next (s.pc t).stolen [] none := by
      rw [hpc]
      rfl
    cases hP : P .acquire with
    | nil =>
      rw [hP, hhead] at hacq
      cases hacq
    | cons a l =>
      rw [hP, hhead] at hacq
      obtain rfl := Option.some.inj hacq.1
      rcases walk_spec hcount hacq with ⟨pre, x, post, hl, hlen, hw⟩ | ⟨pre, x, hl, hlen, hw⟩
      · rw [hw]
        have hlist : P .acquire ++ [] = pre ++ [x] ++ post := by rw [hP, List.append_nil, hl]
        refine h.give_cut (.inl hlock) hstolen (fun _ _ _ => rfl) hlist ?_ hlen
        rw [hP, List.append_nil]
        exact hacq
      · rw [hw]
        refine ⟨⟨P, h.goto (.inl hlock) (by rw [hpc]; rfl) rfl ?_⟩, by simp⟩
        refine ⟨hhead.symm, ?_, by rw [hP], hP.symm, hlen⟩
        rw [hP, hl, List.getLast?_concat]
  · exact ⟨⟨P, h⟩, by simp⟩

theorem finish (h : Invariant bufferCount s P) {c : Call} (hcall : (s.pc t).call = some c)
    (hstolen : (s.pc t).stolen = none) (hrelease : s.releaseHead = none) :
    (∃ Q, Invariant bufferCount (finish s t c).1 Q) ∧
      ∀ r ∈ (finish s t c).2, Divided s (finish s t c).1 r := by
  have hc := h.ranOut t c hcall
  have hnodes : c.nodes = P .acquire ++ [] := by rw [hc.nodes, List.append_nil]
  have hne : s.pc t ≠ .idle := by
    intro hidle
    rw [hidle] at hcall
    cases hcall
  have hnil : Seg s.next (s.pc t).stolen [] none := hstolen
  unfold BufferAllocator.finish
  rw [hnodes]
  refine h.give_all (.inr hne) hnil (fun _ _ _ => rfl) ⟨?_, ?_⟩ ?_ hc.lt (.inr hrelease)
  · rw [List.append_nil, hc.head]
    exact h.lists.acquire
  · rw [List.append_nil, hc.last]
  · rw [List.append_nil, hc.ii]

omit [DecidableEq τ] in
/-- The stolen list is linked to the acquire list. -/
theorem seg_join (h : Invariant bufferCount s P) {c : Call} {node : Nat} (hpc : s.pc t = .join c node)
    {sto : List Nat} (hs : Seg s.next (some node) sto none) :
    Seg (write s.next c.last (some node)) (if c.last.isSome then c.head else some node)
        (P .acquire ++ sto) none ∧
      Seg (write s.next c.last (some node)) (some node) sto none ∧
      ∀ b, b ∉ P .acquire → write s.next c.last (some node) b = s.next b := by
  have hc := h.ranOut t c (by rw [hpc]; rfl)
  have hacq : Seg s.next s.acquireHead (P .acquire) none := h.lists.acquire
  have hstolen : Seg s.next (s.pc t).stolen sto none := by rwa [hpc]
  rcases List.eq_nil_or_concat (P .acquire) with hP | ⟨pre, x, hP⟩
  · have hlast : c.last = none := by rw [hc.last, hP]; rfl
    rw [hlast, hP]
    exact ⟨hs, hs, fun _ _ => rfl⟩
  · rw [List.concat_eq_append] at hP
    have hlast : c.last = some x := by rw [hc.last, hP, List.getLast?_concat]
    have hx : x ∈ P .acquire := by simp [hP]
    have hxs : x ∉ sto := fun hm =>
      absurd (h.lists.placed.one hx (h.lists.mem_stolen hstolen hm)) (by simp)
    rw [hlast, hc.head]
    refine ⟨?_, hs.frame hxs, fun b hb => ?_⟩
    · rw [hP] at hacq ⊢
      exact hacq.splice hacq.nodup hs hxs
    · refine Function.update_of_ne ?_ _ _
      rintro rfl
      exact hb hx

theorem join (h : Invariant bufferCount s P) {c : Call} {node : Nat} (hpc : s.pc t = .join c node) :
    (∃ Q, Invariant bufferCount (resume s t).1 Q) ∧ ∀ r ∈ (resume s t).2, Divided s (resume s t).1 r := by
  have hc := h.ranOut t c (by rw [hpc]; rfl)
  have hne : s.pc t ≠ .idle := by
    rw [hpc]
    exact Pc.noConfusion
  obtain ⟨sto, hs, -⟩ := h.lists.caller t
  have hs' : Seg s.next (some node) sto none := by
    have : Seg s.next (s.pc t).stolen sto none := hs
    rwa [hpc] at this
  obtain ⟨hall, hsto, hnext⟩ := h.seg_join hpc hs'
  have hrem : 0 < c.count - c.ii := Nat.sub_pos_of_lt hc.lt
  have hii := hc.ii
  have hlt := hc.lt
  simp only [resume, hpc, hc.nodes]
  cases sto with
  | nil => cases hs'
  | cons a l =>
    obtain rfl := Option.some.inj hs'.1
    rcases walk_spec hrem hsto with ⟨pre, x, post, hl, hlen, hw⟩ | ⟨pre, x, hl, hlen, hw⟩
    · rw [hw]
      have hfull : c.ii + (c.count - c.ii) = c.count := by omega
      have hlist : P .acquire ++ (node :: l) = P .acquire ++ pre ++ [x] ++ post := by
        rw [hl]
        simp only [List.append_assoc]
      simp only [hfull, ← List.append_assoc]
      refine h.give_cut (.inr hne) hs (fun b hb _ => hnext b hb) hlist hall ?_
      rw [List.append_assoc, List.length_append, hlen]
      omega
    · rw [hw]
      refine h.give_all (.inr hne) hs (fun b hb _ => hnext b hb) ⟨hall, ?_⟩ ?_ ?_ (.inl (List.cons_ne_nil _ _))
      · rw [hl, ← List.append_assoc, List.getLast?_concat]
      · rw [List.length_append, hii]
      · simp only
        omega

theorem resume (h : Invariant bufferCount s P) :
    (∃ Q, Invariant bufferCount (resume s t).1 Q) ∧ ∀ r ∈ (resume s t).2, Divided s (resume s t).1 r := by
  cases hpc : s.pc t with
  | idle =>
    simp only [BufferAllocator.resume, hpc]
    exact ⟨⟨P, h⟩, by simp⟩
  | join c node => exact h.join hpc
  | lookRelease c =>
    have hc := h.ranOut t c (by rw [hpc]; rfl)
    have hne : s.pc t ≠ .idle := by rw [hpc]; exact Pc.noConfusion
    simp only [BufferAllocator.resume, hpc]
    split
    · have hlock := h.holder t hne
      refine ⟨⟨P, ?_⟩, by simp⟩
      have hsame : (Pc.lockRelease c).stolen = (s.pc t).stolen := by
        rw [hpc]
        rfl
      have hgo := h.goto (.inr hne) hsame rfl hc
      rwa [← hlock] at hgo
    · rename_i hnone
      exact h.finish (by rw [hpc]; rfl) (by rw [hpc]; rfl) (by simpa using hnone)
  | lockRelease c =>
    have hc := h.ranOut t c (by rw [hpc]; rfl)
    have hne : s.pc t ≠ .idle := by rw [hpc]; exact Pc.noConfusion
    simp only [BufferAllocator.resume, hpc]
    split
    · rename_i hnone
      exact h.finish (by rw [hpc]; rfl) (by rw [hpc]; rfl) hnone
    · rename_i node hnode
      obtain ⟨Q, hQ, hQacq, hQlost⟩ := h.lists.steal (t := t) (by simp [Pool.lists, hpc, Pc.stolen])
      refine ⟨⟨Q, ?_, hQlost.trans h.lost, fun t' hne' => ?_, fun t' c' hc' => ?_⟩, by simp⟩
      · rw [lists_steal hnode]
        exact hQ
      · by_cases ht : t' = t
        · rw [ht]
          exact h.holder t hne
        · exact absurd ((Function.update_of_ne ht _ _).trans (h.others_idle (.inr hne) ht)) hne'
      · rw [hQacq]
        by_cases ht : t' = t
        · subst ht
          simp only [Pool.goto, Function.update_self] at hc'
          obtain rfl := Option.some.inj hc'
          exact hc
        · simp only [Pool.goto, Function.update_of_ne ht] at hc'
          exact h.ranOut t' c' hc'

omit [DecidableEq τ] in
/-- A caller changes nothing on the acquire list. -/
theorem of_lists (h : Invariant bufferCount s P) {Q : Place τ → List Nat} {next : Nat → Option Nat}
    {releaseHead : Option Nat} {hands : τ → List Nat}
    (hQ : Lists ⟨next, s.acquireHead, releaseHead, fun t => (s.pc t).stolen, hands⟩ (· < bufferCount) Q)
    (hacq : Q .acquire = P .acquire) (hlost : Q .lost = P .lost) :
    Invariant bufferCount { s with next := next, releaseHead := releaseHead, hands := hands } Q where
  lists := hQ
  lost := hlost.trans h.lost
  holder := h.holder
  ranOut t c hc := by
    rw [hacq]
    exact h.ranOut t c hc

/-- **One step.** -/
theorem step (h : Invariant bufferCount s P) (action : Action τ) (hadm : Admissible s action) :
    (∃ Q, Invariant bufferCount (step s action).1 Q) ∧
      ∀ r ∈ (step s action).2, Divided s (step s action).1 r := by
  cases action with
  | acquireBatch t count => exact h.acquireBatch hadm
  | resume t => exact h.resume
  | release t set batch =>
    obtain ⟨Q, hQ, hacq, hlost⟩ := h.lists.releaseBatch hadm.1 hadm.2
    exact ⟨⟨Q, h.of_lists hQ hacq hlost⟩, by simp [BufferAllocator.step]⟩
  | write t buffer value =>
    exact ⟨⟨P, h.of_lists (h.lists.write hadm value) rfl rfl⟩, by simp [BufferAllocator.step]⟩
  | pass t t' buffer =>
    obtain ⟨Q, hQ, hacq, hlost⟩ := h.lists.pass hadm.1 hadm.2
    exact ⟨⟨Q, h.of_lists hQ hacq hlost⟩, by simp [BufferAllocator.step]⟩

theorem sound (h : Invariant bufferCount s P) : Sound bufferCount s :=
  ⟨⟨P, h.lists, h.lost⟩, fun action hadm => (h.step action hadm).2⟩

end Invariant

end Steps

theorem Allocator.bufferCount_pos (k : Allocator) : 0 < k.bufferCount := by
  cases k with
  | buffer n =>
    simp only [Allocator.bufferCount]
    split <;> omega
  | fileWrite setting =>
    simp only [Allocator.bufferCount, minBufferCount, maxBufferCount]
    split_ifs <;> omega

theorem invariant_initial (k : Allocator) (next : Nat → Option Nat) :
    ∃ P, Invariant k.bufferCount (initial k next : Pool τ) P := by
  refine ⟨fun p => match p with
    | .acquire => List.range k.bufferCount
    | _ => [], ⟨seg_linkNodes next k.bufferCount_pos, rfl, fun _ => ⟨[], rfl, rfl⟩, ?_⟩, rfl,
    fun t ht => absurd rfl ht, fun t c hc => by cases hc⟩
  refine ⟨fun p => ?_, fun a => ?_, fun {p q a} hp hq => ?_⟩
  · cases p with
    | acquire => exact List.nodup_range
    | _ => exact List.nodup_nil
  · constructor
    · exact fun ha => ⟨.acquire, List.mem_range.mpr ha⟩
    · rintro ⟨p, hp⟩
      cases p with
      | acquire => exact List.mem_range.mp hp
      | _ => cases hp
  · cases p <;> cases q <;> first | rfl | cases hp | cases hq

/-- In every state of every run the buffers of the constructor are in the lists and the hands of the
callers, each of them once, and a call that returns has divided what it could get. -/
theorem batch_allocators_keep [DecidableEq τ] (k : Allocator) (next : Nat → Option Nat)
    (as : List (Action τ)) (hadm : Run.Guarded step Admissible (initial k next) as) :
    Sound k.bufferCount (Run.exec step (initial k next) as).1 := by
  have hinv := Run.exec_inv (fun s _ => ∃ P, Invariant k.bufferCount s P)
    (fun s _ a ⟨P, hP⟩ ha => (hP.step a ha).1) as (initial k next) [] (invariant_initial k next) hadm
  obtain ⟨P, hP⟩ := hinv
  exact hP.sound

/-- The second caller takes what is left on the acquire list and two buffers of those released meanwhile. -/
def twoLists : List (Action Bool) :=
  [.acquireBatch false 3, .acquireBatch true 3, .release false ⟨some 0, some 2⟩ [0, 1, 2],
    .resume true, .resume true, .resume true]

theorem batch_allocators_keep_two_lists :
    let s := (Run.exec step (initial (.buffer 2) fun _ => none) twoLists).1
    Sound 4 s ∧ s.hands true = [3, 0, 1] ∧ s.acquireHead = some 2 := by
  have h := batch_allocators_keep (.buffer 2) (fun _ => none) twoLists (by decide)
  exact ⟨h, by decide, by decide⟩

end Libcat.Mem.BufferAllocator
