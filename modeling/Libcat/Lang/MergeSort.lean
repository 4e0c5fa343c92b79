import Libcat.Lib.Intrusive
import Libcat.Lib.StableMerge
import Libcat.Math.BitMath

/-!
# MergeSort

The merge sort of singly-linked lists: `SortableItem::MergeSort`, and the copy of it in
`RefSingletonBase`. The items are sorted in place, bottom-up. Each run's first item has a skip pointer to
the first item of the next run; the skip pointers of the other items are stale. A pointer is `none` where
the source has null, and a function returns `none` where it would read through null, run on, or overflow
an `int`.
-/

namespace Libcat.Lang.MergeSort

open Intrusive StableMerge

section Model

def INT_MAX : Nat := 0x7fffffff

variable {α : Type*}

/-- The pointers of the items. -/
structure Items (α : Type*) where
  sort_next : α → Option α
  sort_skip : α → Option α

variable [DecidableEq α]

def Items.setNext (s : Items α) (a : α) (p : Option α) : Items α :=
  { s with sort_next := Function.update s.sort_next a p }

def Items.setSkip (s : Items α) (a : α) (p : Option α) : Items α :=
  { s with sort_skip := Function.update s.sort_skip a p }

@[simp] theorem setNext_next (s : Items α) (a : α) (p : Option α) :
    (s.setNext a p).sort_next = Function.update s.sort_next a p := rfl

@[simp] theorem setNext_skip (s : Items α) (a : α) (p : Option α) :
    (s.setNext a p).sort_skip = s.sort_skip := rfl

@[simp] theorem setSkip_next (s : Items α) (a : α) (p : Option α) :
    (s.setSkip a p).sort_next = s.sort_next := rfl

@[simp] theorem setSkip_skip (s : Items α) (a : α) (p : Option α) :
    (s.setSkip a p).sort_skip = Function.update s.sort_skip a p := rfl

/-- One pair of the first pass: the new tail and `skip_last`, and the head. -/
def pair (le : α → α → Bool) (a b : α) (last : Option (α × α)) (head : α) (s : Items α) :
    (α × α) × α × Items α :=
  let next_pair := s.sort_next b
  if le a b then ((b, a), head, s.setSkip a next_pair)
  else
    let s := (s.setNext a next_pair).setNext b (some a)
    match last with
    | some (tail, skip_last) =>
      ((a, b), head, ((s.setNext tail (some b)).setSkip skip_last (some b)).setSkip b next_pair)
    | none => ((a, b), b, s.setSkip b next_pair)

/-- The first pass. The tail and `skip_last` are set together. -/
def pairLoop (le : α → α → Bool) : Nat → α → Option (α × α) → α → Items α → Option (α × Items α)
  | 0, _, _, _, _ => none
  | fuel + 1, a, last, head, s =>
    match s.sort_next a with
    | none => some (head, s.setSkip a none)
    | some b =>
      let (last, head, s') := pair le a b last head s
      match s.sort_next b with
      | none => some (head, s')
      | some a => pairLoop le fuel a (some last) head s'

/-- Set `x` as tail. -/
def link (tail : Option α) (x head : α) (s : Items α) : α × Items α :=
  match tail with
  | some tail => (head, s.setNext tail (some x))
  | none => (x, s)

/-- Fix the tail pointer: the last of the `b`-items. -/
def fixTail (s : Items α) : Nat → α → α
  | b_remaining + 2, b =>
    match s.sort_next b with
    | none => b
    | some next => fixTail s (b_remaining + 1) next
  | _, b => b

/-- The last of the `a`-items. -/
def lastBefore (s : Items α) (b_head : α) : Nat → α → Option α
  | 0, _ => none
  | fuel + 1, a => (s.sort_next a).bind fun next =>
    if next = b_head then some a else lastBefore s b_head fuel next

/-- Out of `b`-items: the remainder of the `a`-items comes behind `tail`, and leads on to `b`. -/
def appendRest (fuel : Nat) (b_head a tail : α) (b : Option α) (head : α) (s : Items α) :
    Option (α × α × Items α) :=
  let s := s.setNext tail (some a)
  (lastBefore s b_head fuel a).map fun prev => (head, prev, s.setNext prev b)

/-- Merge two lists. The cached values `aoff` and `boff` are always those of `a` and `b`. The first merge
of a pass has no tail yet. -/
def mergeLoop (le : α → α → Bool) (b_head : α) :
    Nat → α → α → Nat → Option α → α → Items α → Option (α × α × Items α)
  | 0, _, _, _, _, _, _ => none
  | fuel + 1, a, b, b_remaining, tail, head, s =>
    if le a b then
      let (head, s) := link tail a head s
      (s.sort_next a).bind fun next =>
        if next = b_head then
          some (head, fixTail (s.setNext a (some b)) b_remaining b, s.setNext a (some b))
        else mergeLoop le b_head fuel next b b_remaining (some a) head s
    else
      let (head, s) := link tail b head s
      match s.sort_next b with
      | none => appendRest fuel b_head a b none head s
      | some next =>
        if b_remaining - 1 = 0 then appendRest fuel b_head a b (some next) head s
        else mergeLoop le b_head fuel a next (b_remaining - 1) (some b) head s

/-- Second and following merges of a pass. -/
def followLoop (le : α → α → Bool) (fuel step_size : Nat) :
    Nat → Option α → α → α → α → Items α → Option (α × Items α)
  | 0, _, _, _, _, _ => none
  | rounds + 1, next_list, tail, skip_last, head, s =>
    match next_list with
    | none => some (head, s.setSkip skip_last none)
    | some a =>
      match s.sort_skip a with
      | none => some (head, (s.setSkip skip_last (some a)).setSkip skip_last (some a))
      | some b =>
        let next_list := s.sort_skip b
        (mergeLoop le b fuel a b step_size (some tail) head (s.setSkip a next_list)).bind
          fun (head, new_tail, s) => (s.sort_next tail).bind fun seg_head =>
            followLoop le fuel step_size rounds next_list new_tail seg_head head
              (s.setSkip skip_last (some seg_head))

/-- One pass: the first merge, and the others. -/
def mergePass (le : α → α → Bool) (fuel step_size : Nat) (a b : α) (s : Items α) :
    Option (α × Items α) :=
  let next_list := s.sort_skip b
  (mergeLoop le b fuel a b step_size none a s).bind fun (head, tail, s) =>
    followLoop le fuel step_size fuel next_list tail head head s

/-- The passes. -/
def sortLoop (le : α → α → Bool) (fuel : Nat) : Nat → Nat → α → Items α → Option (α × Items α)
  | 0, _, _, _ => none
  | rounds + 1, step_size, head, s =>
    match s.sort_skip head with
    | none => some (head, s)
    | some b => (mergePass le fuel step_size head b s).bind fun (head, s) =>
      if step_size * 2 > INT_MAX then none
      else sortLoop le fuel rounds (step_size * 2) head s

/-- The body of both functions, with the comparison of the first pass and that of the others. -/
def mergeSort (pairLe mergeLe : α → α → Bool) (fuel : Nat) (head : Option α) (s : Items α) :
    Option (Option α × Items α) :=
  match head with
  | none => some (none, s)
  | some head => (pairLoop pairLe fuel head none head s).bind fun (head, s) =>
    (sortLoop mergeLe fuel fuel 2 head s).map fun (head, s) => (some head, s)

/-- `SortableItem::MergeSort`, for the `u32` values that it is used with. -/
def SortableItem.mergeSort (sort_value : α → u32) :
    Nat → Option α → Items α → Option (Option α × Items α) :=
  MergeSort.mergeSort (fun a b => (sort_value a).ule (sort_value b))
    (fun a b => (sort_value a).ule (sort_value b))

/-- `RefSingletonBase::MergeSort`. The priority is an `int`, its cached value a `u32`. -/
def RefSingletonBase.mergeSort (final_priority : α → BitVec 32) :
    Nat → Option α → Items α → Option (Option α × Items α) :=
  MergeSort.mergeSort (fun a b => (final_priority a).sle (final_priority b))
    (fun a b => (final_priority a).ule (final_priority b))

end Model

section Merge

variable {α : Type*}

/-- Where that begins which is linked behind `tail`, or from the head on where there is no tail. -/
def start (tail : Option α) (head : α) (next : α → Option α) : Option α :=
  match tail with
  | some tail => next tail
  | none => some head

/-- The list `l` is linked behind `tail`, leads to `q` and ends with `tail'`. -/
structure Merged (tail : Option α) (head : α) (l : List α) (q : Option α) (s : Items α)
    (head' tail' : α) (s' : Items α) : Prop where
  skip : s'.sort_skip = s.sort_skip
  chain : Seg s'.sort_next (start tail head' s'.sort_next) l q
  head_eq : tail ≠ none → head' = head
  last : l.getLast? = some tail'
  frame : ∀ x, x ∉ l → x ∉ tail → s'.sort_next x = s.sort_next x

variable {s s' : Items α} {tail q : Option α} {head head' tail' b_head : α}

/-- The last item leads where the list does. -/
theorem seg_last {next : α → Option α} {l : List α} {p : Option α} {t : α} (h : Seg next p l q)
    (hlast : l.getLast? = some t) : next t = q := by
  obtain ⟨m, rfl⟩ := List.getLast?_eq_some_iff.mp hlast
  obtain ⟨r, -, -, hq⟩ := Seg.append.mp h
  exact hq

theorem fixTail_spec {b : α} {l : List α} {n : Nat} (h : Seg s.sort_next (some b) (b :: l) q)
    (hle : (b :: l).length ≤ n) (hfull : q = none ∨ (b :: l).length = n) :
    (b :: l).getLast? = some (fixTail s n b) := by
  induction l generalizing b n with
  | nil =>
    obtain ⟨-, hnext⟩ := h
    have hnext : s.sort_next b = q := hnext
    match n with
    | 0 | 1 => rfl
    | n + 2 =>
      rcases hfull with rfl | hlen
      · simp [fixTail, hnext]
      · cases hlen
  | cons c l ih =>
    obtain ⟨-, hc, hl⟩ := h
    match n with
    | 0 | 1 => simp at hle
    | n + 2 =>
      rw [List.getLast?_cons_cons]
      simp only [fixTail, hc]
      exact ih ⟨rfl, hl⟩ (Nat.le_of_succ_le_succ hle) (hfull.imp_right Nat.succ.inj)

variable [DecidableEq α] {le : α → α → Bool}

/-- One more item in front. -/
theorem Merged.cons {x : α} {l : List α} (htail : ∀ t ∈ tail, t ≠ x ∧ t ∉ l)
    (hne : l ≠ []) (h : Merged (some x) (link tail x head s).1 l q (link tail x head s).2 head' tail' s') :
    Merged tail head (x :: l) q s head' tail' s' := by
  have hhead := h.head_eq (Option.some_ne_none x)
  have hlast : (x :: l).getLast? = some tail' := by
    rw [List.getLast?_cons_of_ne_nil hne]
    exact h.last
  cases tail with
  | none =>
    refine ⟨h.skip, ⟨congrArg some hhead, h.chain⟩, fun hn => absurd rfl hn, hlast, fun y hy _ => ?_⟩
    rw [List.mem_cons, not_or] at hy
    exact h.frame y hy.2 (by simpa using Ne.symm hy.1)
  | some t =>
    obtain ⟨htx, htl⟩ := htail t rfl
    have hframe : ∀ y, y ∉ l → y ≠ x → s'.sort_next y = Function.update s.sort_next t (some x) y :=
      fun y hy hyx => h.frame y hy (by simpa using Ne.symm hyx)
    refine ⟨h.skip, ⟨?_, h.chain⟩, fun _ => hhead, hlast, fun y hy hyt => ?_⟩
    · exact (hframe t htl htx).trans (Function.update_self t _ _)
    · rw [List.mem_cons, not_or] at hy
      have hne : y ≠ t := fun he => hyt (he ▸ rfl)
      rw [hframe y hy.2 hy.1, Function.update_of_ne hne]

theorem link_next {x y : α} (hy : y ∉ tail) : (link tail x head s).2.sort_next y = s.sort_next y := by
  cases tail with
  | none => rfl
  | some t =>
    have hne : y ≠ t := by
      rintro rfl
      exact hy rfl
    exact Function.update_of_ne hne _ _

theorem link_seg (x head : α) {l : List α} {p : Option α} (htail : ∀ t ∈ tail, t ∉ l)
    (h : Seg s.sort_next p l q) : Seg (link tail x head s).2.sort_next p l q := by
  apply h.congr
  intro y hy
  exact link_next fun ht => htail y ht hy

/-- The last item of a list leads elsewhere. -/
theorem seg_setLast {next : α → Option α} {l : List α} {p r : Option α} {t : α} (h : Seg next p l q)
    (hlast : l.getLast? = some t) (hnd : l.Nodup) : Seg (Function.update next t r) p l r := by
  obtain ⟨m, rfl⟩ := List.getLast?_eq_some_iff.mp hlast
  obtain ⟨u, hm, rfl, -⟩ := Seg.append.mp h
  have ht : t ∉ m := fun ht => (List.nodup_append.mp hnd).2.2 t ht t (by simp) rfl
  refine Seg.append.mpr ⟨some t, hm.frame ht, rfl, ?_⟩
  rw [Function.update_self]
  rfl

theorem lastBefore_spec {a : α} {l : List α} (h : Seg s.sort_next (some a) (a :: l) (some b_head))
    (hhead : b_head ∉ l) : ∃ t, (a :: l).getLast? = some t ∧
      ∀ fuel, l.length < fuel → lastBefore s b_head fuel a = some t := by
  induction l generalizing a with
  | nil =>
    refine ⟨a, rfl, fun fuel hfuel => ?_⟩
    obtain ⟨f, rfl⟩ := Nat.exists_eq_succ_of_ne_zero (Nat.zero_lt_of_lt hfuel).ne'
    have hnext : s.sort_next a = some b_head := h.2
    simp [lastBefore, hnext]
  | cons c l ih =>
    obtain ⟨-, hc, hl⟩ := h
    rw [List.mem_cons, not_or] at hhead
    obtain ⟨t, hlast, hrun⟩ := ih ⟨rfl, hl⟩ hhead.2
    refine ⟨t, by rwa [List.getLast?_cons_cons], fun fuel hfuel => ?_⟩
    obtain ⟨f, rfl⟩ := Nat.exists_eq_succ_of_ne_zero (Nat.zero_lt_of_lt hfuel).ne'
    simp only [lastBefore, hc, Option.bind_some]
    rw [if_neg (Ne.symm hhead.1)]
    exact hrun f (Nat.lt_of_succ_lt_succ hfuel)

/-- What is left of the `a`-items, behind `t`. -/
theorem appendRest_spec (q : Option α) (head : α) {a t : α} {A : List α}
    (ha : Seg s.sort_next (some a) (a :: A) (some b_head)) (hnd : (a :: A).Nodup) (hhead : b_head ∉ A)
    (ht : t ∉ a :: A) : ∃ tail' s', (∀ fuel, A.length < fuel →
        appendRest fuel b_head a t q head s = some (head, tail', s')) ∧
      Merged (some t) head (a :: A) q s head tail' s' := by
  have ha' : Seg (s.setNext t (some a)).sort_next (some a) (a :: A) (some b_head) := ha.frame ht
  obtain ⟨prev, hlast, hrun⟩ := lastBefore_spec ha' hhead
  have hprev : prev ∈ a :: A := List.mem_of_getLast? hlast
  have htp : t ≠ prev := fun he => ht (he ▸ hprev)
  refine ⟨prev, (s.setNext t (some a)).setNext prev q, fun fuel hfuel => ?_, rfl, ?_, fun _ => rfl, hlast,
    fun x hx hxt => ?_⟩
  · simp only [appendRest, hrun fuel hfuel, Option.map_some]
  · have hstart : start (some t) head ((s.setNext t (some a)).setNext prev q).sort_next = some a := by
      simp [start, Function.update_of_ne htp]
    rw [hstart]
    exact seg_setLast ha' hlast hnd
  · have hxp : x ≠ prev := fun he => hx (he ▸ hprev)
    have hxt : x ≠ t := fun he => hxt (he ▸ rfl)
    simp [Function.update_of_ne hxp, Function.update_of_ne hxt]

/-- All of the `b`-items, behind `t`. -/
theorem appendAll_spec {b t : α} {B : List α} {n : Nat} (hb : Seg s.sort_next (some b) (b :: B) q)
    (ht : t ∉ b :: B) (hle : (b :: B).length ≤ n) (hfull : q = none ∨ (b :: B).length = n) :
    Merged (some t) head (b :: B) q s head (fixTail (s.setNext t (some b)) n b)
      (s.setNext t (some b)) := by
  have hb' : Seg (s.setNext t (some b)).sort_next (some b) (b :: B) q := hb.frame ht
  refine ⟨rfl, ?_, fun _ => rfl, fixTail_spec hb' hle hfull, fun x _ hxt => ?_⟩
  · have hstart : start (some t) head (s.setNext t (some b)).sort_next = some b :=
      Function.update_self t _ _
    rwa [hstart]
  · have hne : x ≠ t := fun he => hxt (he ▸ rfl)
    exact Function.update_of_ne hne _ _

/-- The step that takes `a`. -/
theorem mergeLoop_left {a b next : α} {n : Nat} (hcmp : le a b = true)
    (hnext : (link tail a head s).2.sort_next a = some next) (fuel : Nat) :
    mergeLoop le b_head (fuel + 1) a b n tail head s =
      if next = b_head then
        some ((link tail a head s).1, fixTail ((link tail a head s).2.setNext a (some b)) n b,
          (link tail a head s).2.setNext a (some b))
      else mergeLoop le b_head fuel next b n (some a) (link tail a head s).1 (link tail a head s).2 := by
  rw [mergeLoop, if_pos hcmp]
  simp only [hnext, Option.bind_some]

/-- The step that takes the last `b`. -/
theorem mergeLoop_last {a b : α} {n : Nat} (hcmp : ¬le a b = true)
    (hnext : (link tail b head s).2.sort_next b = q) (hend : q = none ∨ n = 1) (fuel : Nat) :
    mergeLoop le b_head (fuel + 1) a b n tail head s =
      appendRest fuel b_head a b q (link tail b head s).1 (link tail b head s).2 := by
  rw [mergeLoop, if_neg hcmp]
  simp only [hnext]
  cases q with
  | none => rfl
  | some x =>
    rcases hend with hn | rfl
    · cases hn
    · rfl

/-- The step that takes another `b`. -/
theorem mergeLoop_right {a b next : α} {n : Nat} (hcmp : ¬le a b = true)
    (hnext : (link tail b head s).2.sort_next b = some next) (hn : 2 ≤ n) (fuel : Nat) :
    mergeLoop le b_head (fuel + 1) a b n tail head s =
      mergeLoop le b_head fuel a next (n - 1) (some b) (link tail b head s).1
        (link tail b head s).2 := by
  rw [mergeLoop, if_neg hcmp]
  simp only [hnext]
  exact if_neg (by omega)

variable (head le) in
/-- The loop merges the lists, by the items that are left. -/
theorem mergeLoop_spec {a b : α} {A B : List α} {n : Nat}
    (ha : Seg s.sort_next (some a) (a :: A) (some b_head)) (hb : Seg s.sort_next (some b) (b :: B) q)
    (hnd : (a :: A ++ b :: B).Nodup) (hhead : b_head ∉ A) (htail : ∀ t ∈ tail, t ∉ a :: A ++ b :: B)
    (hle : (b :: B).length ≤ n) (hfull : q = none ∨ (b :: B).length = n) :
    ∃ head' tail' s', (∀ fuel, A.length + B.length + 1 < fuel →
        mergeLoop le b_head fuel a b n tail head s = some (head', tail', s')) ∧
      Merged tail head ((a :: A).merge (b :: B) le) q s head' tail' s' := by
  induction hk : A.length + B.length using Nat.strong_induction_on
    generalizing a b A B n tail head s with
  | _ k ih =>
  subst hk
  obtain ⟨haAB, hAB⟩ := List.nodup_cons.mp (show (a :: (A ++ b :: B)).Nodup from hnd)
  have hA : (a :: A).Nodup := (List.nodup_append.mp hnd).1
  obtain ⟨hbAB, hnd'⟩ := List.nodup_cons.mp (List.nodup_middle.mp hnd)
  have hta : ∀ t ∈ tail, t ∉ a :: A := fun t ht hm => htail t ht (List.mem_append_left _ hm)
  have htb : ∀ t ∈ tail, t ∉ b :: B := fun t ht hm => htail t ht (List.mem_append_right _ hm)
  rw [List.cons_merge_cons]
  by_cases hcmp : le a b = true
  · -- `a` becomes the tail
    have ha₁ := link_seg a head hta ha
    have hb₁ := link_seg a head htb hb
    have hout : ∀ t ∈ tail, t ≠ a ∧ t ∉ A.merge (b :: B) le := by
      intro t ht
      have hnot := htail t ht
      simp only [List.cons_append, List.mem_cons, List.mem_append, not_or] at hnot
      simp only [List.mem_merge, List.mem_cons, not_or]
      exact hnot
    have hne : A.merge (b :: B) le ≠ [] := by
      rw [← List.length_pos_iff, List.length_merge]
      simp
    rw [if_pos hcmp]
    cases A with
    | nil =>
      have hnext : (link tail a head s).2.sort_next a = some b_head := ha₁.2
      refine ⟨(link tail a head s).1, fixTail ((link tail a head s).2.setNext a (some b)) n b,
        (link tail a head s).2.setNext a (some b), fun fuel hfuel => ?_, Merged.cons hout hne ?_⟩
      · obtain ⟨f, rfl⟩ := Nat.exists_eq_succ_of_ne_zero (Nat.zero_lt_of_lt hfuel).ne'
        rw [Nat.succ_eq_add_one, mergeLoop_left hcmp hnext, if_pos rfl]
      · rw [List.nil_merge]
        exact appendAll_spec hb₁ haAB hle hfull
    | cons c A =>
      obtain ⟨-, hnext, hc⟩ := ha₁
      rw [List.mem_cons, not_or] at hhead
      obtain ⟨head', tail', s', hrun, hmerged⟩ := ih (A.length + B.length) (by simp) _ ⟨rfl, hc⟩ hb₁
        hAB hhead.2 (fun t ht => Option.some.inj ht ▸ haAB) hle hfull rfl
      refine ⟨head', tail', s', fun fuel hfuel => ?_, Merged.cons hout hne hmerged⟩
      obtain ⟨f, rfl⟩ := Nat.exists_eq_succ_of_ne_zero (Nat.zero_lt_of_lt hfuel).ne'
      rw [Nat.succ_eq_add_one, mergeLoop_left hcmp hnext, if_neg (Ne.symm hhead.1)]
      exact hrun f (by simp only [List.length_cons] at hfuel; omega)
  · -- `b` becomes the tail
    have ha₁ := link_seg b head hta ha
    have hb₁ := link_seg b head htb hb
    have hout : ∀ t ∈ tail, t ≠ b ∧ t ∉ (a :: A).merge B le := by
      intro t ht
      have hnot := htail t ht
      simp only [List.cons_append, List.mem_cons, List.mem_append, not_or] at hnot
      simp only [List.mem_merge, List.mem_cons, not_or]
      exact ⟨hnot.2.2.1, ⟨hnot.1, hnot.2.1⟩, hnot.2.2.2⟩
    have hne : (a :: A).merge B le ≠ [] := by
      rw [← List.length_pos_iff, List.length_merge]
      simp
    have hba : b ∉ a :: A := fun hm => hbAB (List.mem_append_left _ hm)
    rw [if_neg hcmp]
    cases B with
    | nil =>
      have hnext : (link tail b head s).2.sort_next b = q := hb₁.2
      obtain ⟨tail', s', hrun, hmerged⟩ := appendRest_spec q (link tail b head s).1 ha₁ hA hhead hba
      refine ⟨(link tail b head s).1, tail', s', fun fuel hfuel => ?_, Merged.cons hout hne ?_⟩
      · obtain ⟨f, rfl⟩ := Nat.exists_eq_succ_of_ne_zero (Nat.zero_lt_of_lt hfuel).ne'
        have hend : q = none ∨ n = 1 := hfull.imp_right Eq.symm
        rw [Nat.succ_eq_add_one, mergeLoop_last hcmp hnext hend]
        exact hrun f (by simp only [List.length_nil] at hfuel; omega)
      · rw [List.merge_right]
        exact hmerged
    | cons c B =>
      obtain ⟨-, hnext, hc⟩ := hb₁
      have hlen : (c :: B).length + 1 ≤ n := hle
      obtain ⟨head', tail', s', hrun, hmerged⟩ := ih (A.length + B.length) (by simp) _ ha₁
        ⟨rfl, hc⟩ hnd' hhead (fun t ht => Option.some.inj ht ▸ hbAB) (Nat.le_sub_one_of_lt hlen)
        (hfull.imp_right fun he => by rw [← he]; rfl) rfl
      refine ⟨head', tail', s', fun fuel hfuel => ?_, Merged.cons hout hne hmerged⟩
      obtain ⟨f, rfl⟩ := Nat.exists_eq_succ_of_ne_zero (Nat.zero_lt_of_lt hfuel).ne'
      have hn : 2 ≤ n := le_trans (by simp) hlen
      rw [Nat.succ_eq_add_one, mergeLoop_right hcmp hnext hn]
      exact hrun f (by simp only [List.length_cons] at hfuel; omega)

end Merge

section Pass

variable {α : Type*}

/-- The first items of the runs. -/
def heads (runs : List (List α)) : List α := runs.filterMap List.head?

/-- The runs in place: linked from `p` on, and by the skip pointers of their first items. -/
structure Ready (s : Items α) (p : Option α) (runs : List (List α)) : Prop where
  chain : Seg s.sort_next p runs.flatten none
  skips : Seg s.sort_skip p (heads runs) none

/-- The run `r` comes behind `last` (a tail and the first item of the run that it ends), in front of `q`. -/
structure Front (last : Option (α × α)) (head : α) (r : List α) (q : Option α) (s : Items α)
    (head' : α) (s' : Items α) : Prop where
  chain : Seg s'.sort_next (start (last.map Prod.fst) head' s'.sort_next) r q
  skip : start (last.map Prod.snd) head' s'.sort_skip = r.head?
  head_eq : last ≠ none → head' = head
  next_frame : ∀ x, x ∉ r → x ∉ last.map Prod.fst → s'.sort_next x = s.sort_next x
  skip_frame : ∀ x, x ∉ r → x ∉ last.map Prod.snd → s'.sort_skip x = s.sort_skip x

/-- All the runs come behind `last`. -/
structure Placed (last : Option (α × α)) (head : α) (runs : List (List α)) (s : Items α) (head' : α)
    (s' : Items α) : Prop where
  chain : Seg s'.sort_next (start (last.map Prod.fst) head' s'.sort_next) runs.flatten none
  skips : Seg s'.sort_skip (start (last.map Prod.snd) head' s'.sort_skip) (heads runs) none
  head_eq : last ≠ none → head' = head
  next_frame : ∀ x, x ∉ runs.flatten → x ∉ last.map Prod.fst → s'.sort_next x = s.sort_next x
  skip_frame : ∀ x, x ∉ runs.flatten → x ∉ last.map Prod.snd → s'.sort_skip x = s.sort_skip x

variable {s s₁ s' : Items α} {last : Option (α × α)} {head head₁ head' tail skip_last : α} {q : Option α}
  {runs : List (List α)} {r : List α}

theorem Placed.ready (h : Placed none head runs s head' s') : Ready s' (some head') runs :=
  ⟨h.chain, h.skips⟩

theorem Placed.nil (hnext : s.sort_next tail = none) (hskip : s.sort_skip skip_last = none) :
    Placed (some (tail, skip_last)) head [] s head s :=
  ⟨hnext, hskip, fun _ => rfl, fun _ _ _ => rfl, fun _ _ _ => rfl⟩

/-- Where a run and then the others are put, all of them are. -/
theorem Front.cons (hf : Front last head r q s head₁ s₁) (htail : r.getLast? = some tail)
    (hhead : r.head? = some skip_last) (h : Placed (some (tail, skip_last)) head₁ runs s₁ head' s')
    (hnd : (r ++ runs.flatten).Nodup)
    (hlast : ∀ p ∈ last, p.1 ∉ r ++ runs.flatten ∧ p.2 ∉ r ++ runs.flatten) :
    Placed last head (r :: runs) s head' s' := by
  obtain ⟨m, rfl⟩ := List.getLast?_eq_some_iff.mp htail
  obtain ⟨hr, -, hdisj⟩ := List.nodup_append.mp hnd
  have hmem_tail : tail ∈ m ++ [tail] := by simp
  have hmem_skip : skip_last ∈ m ++ [tail] := List.mem_of_mem_head? hhead
  have hhead' : head' = head₁ := h.head_eq (Option.some_ne_none _)
  have htm : tail ∉ m := fun ht => (List.nodup_append.mp hr).2.2 tail ht tail (by simp) rfl
  have hnext : ∀ x, x ∉ runs.flatten → x ≠ tail → s'.sort_next x = s₁.sort_next x :=
    fun x hx hne => h.next_frame x hx fun hm => hne (Option.some.inj hm).symm
  have hskip : ∀ x, x ∉ runs.flatten → x ≠ skip_last → s'.sort_skip x = s₁.sort_skip x :=
    fun x hx hne => h.skip_frame x hx fun hm => hne (Option.some.inj hm).symm
  have hstart : start (last.map Prod.fst) head' s'.sort_next =
      start (last.map Prod.fst) head₁ s₁.sort_next := by
    cases last with
    | none => exact congrArg some hhead'
    | some p =>
      have hp := (hlast p rfl).1
      rw [List.mem_append, not_or] at hp
      exact hnext p.1 hp.2 fun he => hp.1 (he ▸ hmem_tail)
  have hstart' : start (last.map Prod.snd) head' s'.sort_skip =
      start (last.map Prod.snd) head₁ s₁.sort_skip := by
    cases last with
    | none => exact congrArg some hhead'
    | some p =>
      have hp := (hlast p rfl).2
      rw [List.mem_append, not_or] at hp
      exact hskip p.2 hp.2 fun he => hp.1 (he ▸ hmem_skip)
  refine ⟨?_, ?_, fun hn => hhead'.trans (hf.head_eq hn), fun x hx hxl => ?_, fun x hx hxl => ?_⟩
  · rw [hstart, List.flatten_cons, List.append_assoc]
    obtain ⟨u, hm, rfl, -⟩ := Seg.append.mp hf.chain
    refine Seg.append.mpr ⟨some tail, hm.congr fun x hx => ?_, rfl, h.chain⟩
    have hxr : x ∈ m ++ [tail] := List.mem_append_left _ hx
    exact hnext x (fun hm => hdisj x hxr x hm rfl) fun he => htm (he ▸ hx)
  · rw [hstart', hf.skip, heads, List.filterMap_cons_some hhead, hhead]
    exact ⟨rfl, h.skips⟩
  · rw [List.flatten_cons, List.mem_append, not_or] at hx
    rw [hnext x hx.2 fun he => hx.1 (he ▸ hmem_tail)]
    exact hf.next_frame x hx.1 hxl
  · rw [List.flatten_cons, List.mem_append, not_or] at hx
    rw [hskip x hx.2 fun he => hx.1 (he ▸ hmem_skip)]
    exact hf.skip_frame x hx.1 hxl

theorem seg_start {next : α → Option α} {l : List α} {p : Option α} (h : Seg next p l q)
    (hne : l ≠ []) : p = l.head? := by
  cases l with
  | nil => exact absurd rfl hne
  | cons a l => exact h.1

theorem heads_head? (h : ∀ r ∈ runs, r ≠ []) : (heads runs).head? = runs.flatten.head? := by
  cases runs with
  | nil => rfl
  | cons r runs =>
    cases r with
    | nil => exact absurd rfl (h [] (by simp))
    | cons a r => rfl

theorem mem_heads {x : α} (h : x ∈ heads runs) : x ∈ runs.flatten := by
  obtain ⟨r, hr, hx⟩ := List.mem_filterMap.mp h
  exact List.mem_flatten.mpr ⟨r, hr, List.mem_of_mem_head? hx⟩

/-- The first two runs, and the others behind them. -/
theorem Ready.split {a b : α} {A B : List α} (h : Ready s q ((a :: A) :: (b :: B) :: runs))
    (hne : ∀ r ∈ runs, r ≠ []) :
    q = some a ∧ s.sort_skip a = some b ∧ Seg s.sort_next (some a) (a :: A) (some b) ∧
      Seg s.sort_next (some b) (b :: B) (s.sort_skip b) ∧ Ready s (s.sort_skip b) runs := by
  obtain ⟨ha, hb, hskips⟩ := h.skips
  have hchain := h.chain
  rw [List.flatten_cons, List.flatten_cons] at hchain
  obtain ⟨p, hA, hrest⟩ := Seg.append.mp hchain
  obtain ⟨p', hB, hrest'⟩ := Seg.append.mp hrest
  obtain rfl : p = some b := hB.1
  have hp' : p' = s.sort_skip b := by
    rw [hrest'.head, ← heads_head? hne]
    exact (Seg.head hskips).symm
  rw [hp'] at hB hrest'
  exact ⟨ha, hb, ha ▸ hA, hB, hrest', hskips⟩

/-- A merged run in front of the others, which are still ready. -/
theorem Merged.ready {tail' : α} {l : List α} {p : Option α} {s₁ : Items α}
    (h : Merged p head l q s head₁ tail' s₁) (hready : Ready s q runs)
    (hnd : (l ++ runs.flatten).Nodup) (hp : ∀ t ∈ p, t ∉ runs.flatten) : Ready s₁ q runs := by
  constructor
  · apply hready.chain.congr
    intro x hx
    exact h.frame x (fun hl => (List.nodup_append.mp hnd).2.2 x hl x hx rfl) fun hm => hp x hm hx
  · rw [h.skip]
    exact hready.skips

theorem Ready.one {r : List α} (h : Ready s (some head) [r]) : s.sort_skip head = none := by
  cases r with
  | nil => exact absurd h.chain (by simp [Seg])
  | cons a r =>
    obtain ⟨ha, hskip⟩ := h.skips
    obtain rfl := Option.some.inj ha
    exact hskip

variable [DecidableEq α] {le : α → α → Bool} {step : Nat}

theorem Ready.setSkip {a : α} (h : Ready s q runs) (p : Option α) (ha : a ∉ runs.flatten) :
    Ready (s.setSkip a p) q runs :=
  ⟨h.chain, h.skips.frame fun hm => ha (mem_heads hm)⟩

/-- Runs that stay as they are. -/
theorem Ready.placed (h : Ready s q runs) (head : α) (htail : s.sort_next tail = q)
    (hskip : skip_last ∉ runs.flatten) :
    Placed (some (tail, skip_last)) head runs s head (s.setSkip skip_last q) := by
  refine ⟨?_, ?_, fun _ => rfl, fun _ _ _ => rfl, fun x _ hx => ?_⟩
  · exact htail.symm ▸ h.chain
  · have hstart : start ((some (tail, skip_last)).map Prod.snd) head (s.setSkip skip_last q).sort_skip =
        q := by simp [start]
    rw [hstart]
    exact h.skips.frame fun hm => hskip (mem_heads hm)
  · have hne : x ≠ skip_last := fun he => hx (he ▸ rfl)
    exact Function.update_of_ne hne _ _

/-- The merge of two runs, in front of the others. -/
theorem merge_runs {a b : α} {A B : List α} {p : Option α} (le : α → α → Bool) (head : α)
    (hA : Seg s.sort_next (some a) (a :: A) (some b)) (hB : Seg s.sort_next (some b) (b :: B) q)
    (hrest : Ready s q runs) (hnd : ((a :: A) :: (b :: B) :: runs).flatten.Nodup)
    (hchunks : Chunks step ((a :: A) :: (b :: B) :: runs))
    (hp : ∀ t ∈ p, t ∉ ((a :: A) :: (b :: B) :: runs).flatten) :
    ∃ x head₁ tail₁ s₁, (∀ fuel, ((a :: A) :: (b :: B) :: runs).flatten.length < fuel →
        mergeLoop le b fuel a b step p head s = some (head₁, tail₁, s₁)) ∧
      Merged p head ((a :: A).merge (b :: B) le) q s head₁ tail₁ s₁ ∧ Ready s₁ q runs ∧
      ((a :: A).merge (b :: B) le).head? = some x ∧ start p head₁ s₁.sort_next = some x ∧
      tail₁ ∉ runs.flatten ∧ x ∉ runs.flatten := by
  rw [List.flatten_cons, List.flatten_cons, ← List.append_assoc] at hnd hp ⊢
  obtain ⟨hnd_ab, -, -⟩ := List.nodup_append.mp hnd
  obtain ⟨hle, hfull⟩ := hchunks.tail.head
  have hq : q = none ∨ (b :: B).length = step := by
    rcases hfull with rfl | hlen
    · exact .inl hrest.chain
    · exact .inr hlen
  have hb_out : b ∉ A := fun hm =>
    (List.nodup_append.mp hnd_ab).2.2 b (List.mem_cons_of_mem a hm) b (by simp) rfl
  have hp_ab : ∀ t ∈ p, t ∉ a :: A ++ b :: B := fun t ht hm => hp t ht (List.mem_append_left _ hm)
  obtain ⟨head₁, tail₁, s₁, hrun, hmerged⟩ :=
    mergeLoop_spec head le hA hB hnd_ab hb_out hp_ab hle hq
  have hnd_l : ((a :: A).merge (b :: B) le ++ runs.flatten).Nodup :=
    ((List.merge_perm_append le).append_right runs.flatten).nodup_iff.mpr hnd
  have hout : ∀ y ∈ (a :: A).merge (b :: B) le, y ∉ runs.flatten := fun y hy hm =>
    (List.nodup_append.mp hnd_l).2.2 y hy y hm rfl
  have hne : (a :: A).merge (b :: B) le ≠ [] := by
    rw [← List.length_pos_iff, List.length_merge]
    simp
  obtain ⟨x, hx⟩ := Option.isSome_iff_exists.mp (List.isSome_head?.mpr hne)
  refine ⟨x, head₁, tail₁, s₁, fun fuel hfuel => hrun fuel ?_, hmerged,
    hmerged.ready hrest hnd_l fun t ht hm => hp t ht (List.mem_append_right _ hm), hx,
    (seg_start hmerged.chain hne).trans hx, hout tail₁ (List.mem_of_getLast? hmerged.last),
    hout x (List.mem_of_mem_head? hx)⟩
  simp only [List.length_append, List.length_cons] at hfuel
  omega

variable (head le) in
/-- The second and following merges, two runs at a time. -/
theorem followLoop_spec (hready : Ready s q runs) (hnd : runs.flatten.Nodup) (hchunks : Chunks step runs)
    (hstep : 0 < step) (htail : s.sort_next tail = q) (htail_out : tail ∉ runs.flatten)
    (hskip_out : skip_last ∉ runs.flatten) :
    ∃ head' s', (∀ fuel rounds, runs.flatten.length < fuel → runs.length < rounds →
        followLoop le fuel step rounds q tail skip_last head s = some (head', s')) ∧
      Placed (some (tail, skip_last)) head (StableMerge.mergeRuns le runs) s head' s' := by
  fun_induction StableMerge.mergeRuns le runs generalizing s q tail skip_last head with
  | case1 r₁ r₂ runs ih =>
    have hne := hchunks.ne_nil hstep
    obtain ⟨a, A, rfl⟩ := List.exists_cons_of_ne_nil (hne r₁ (by simp))
    obtain ⟨b, B, rfl⟩ := List.exists_cons_of_ne_nil (hne r₂ (by simp))
    obtain ⟨rfl, hskip, hA, hB, hrest⟩ :=
      hready.split fun r hr => hne r (List.mem_cons_of_mem _ (List.mem_cons_of_mem _ hr))
    have hperm := StableMerge.mergeRuns_cons_perm le (a :: A) (b :: B) runs
    obtain ⟨ha_out, hskip_rest, hnd_rest⟩ : a ∉ runs.flatten ∧ skip_last ∉ runs.flatten ∧
        runs.flatten.Nodup := by
      simp only [List.flatten_cons, List.mem_append, not_or] at hnd hskip_out
      obtain ⟨-, hnd', hdisj⟩ := List.nodup_append.mp hnd
      exact ⟨fun hm => hdisj a (by simp) a (List.mem_append_right _ hm) rfl, hskip_out.2.2,
        (List.nodup_append.mp hnd').2.1⟩
    obtain ⟨x, head₁, tail₁, s₁, hmerge, hmerged, hready₁, hx, hseg, htail₁, hx_out⟩ :=
      merge_runs le head (show Seg (s.setSkip a (s.sort_skip b)).sort_next _ _ _ from hA) hB
        (hrest.setSkip _ ha_out) hnd hchunks
        (fun t (ht : t ∈ some tail) => Option.some.inj ht ▸ htail_out)
    have hseg : s₁.sort_next tail = some x := hseg
    obtain ⟨head', s', hrun, hplaced⟩ := ih head₁
      (hready₁.setSkip (some x) hskip_rest) hnd_rest hchunks.tail.tail
      (seg_last hmerged.chain hmerged.last) htail₁ hx_out
    have hfront : Front (some (tail, skip_last)) head ((a :: A).merge (b :: B) le) (s.sort_skip b) s
        head₁ (s₁.setSkip skip_last (some x)) := by
      refine ⟨hmerged.chain, ?_, fun _ => hmerged.head_eq (Option.some_ne_none tail), hmerged.frame,
        fun y hy hys => ?_⟩
      · simp [start, hx]
      · have ha : a ∈ (a :: A).merge (b :: B) le := List.mem_merge.mpr (.inl List.mem_cons_self)
        have hya : y ≠ a := fun he => hy (he ▸ ha)
        have hyskip : y ≠ skip_last := fun he => hys (he ▸ rfl)
        simp [hmerged.skip, Function.update_of_ne hya, Function.update_of_ne hyskip]
    refine ⟨head', s', fun fuel rounds hfuel hrounds => ?_,
      hfront.cons hmerged.last hx hplaced (hperm.nodup_iff.mpr hnd) ?_⟩
    · obtain ⟨f, rfl⟩ := Nat.exists_eq_succ_of_ne_zero (Nat.zero_lt_of_lt hrounds).ne'
      rw [followLoop]
      simp only [hskip, hmerge fuel hfuel, Option.bind_some, hseg]
      simp only [List.flatten_cons, List.length_append, List.length_cons] at hfuel hrounds
      exact hrun fuel f (by omega) (by omega)
    · intro p hp
      obtain rfl := Option.some.inj hp
      exact ⟨fun hm => htail_out (hperm.mem_iff.mp hm), fun hm => hskip_out (hperm.mem_iff.mp hm)⟩
  | case2 runs hshort =>
    refine ⟨head, s.setSkip skip_last q, fun fuel rounds _ hrounds => ?_,
      hready.placed head htail hskip_out⟩
    obtain ⟨f, rfl⟩ := Nat.exists_eq_succ_of_ne_zero (Nat.zero_lt_of_lt hrounds).ne'
    rcases runs with _ | ⟨_ | ⟨a, A⟩, _ | ⟨r₂, rest⟩⟩
    · obtain rfl : q = none := hready.chain
      rfl
    · exact absurd rfl hchunks.1
    · exact absurd rfl (hshort _ r₂ rest)
    · obtain ⟨rfl, hskip⟩ := hready.skips
      have hskip : s.sort_skip a = none := hskip
      rw [followLoop]
      simp only [hskip, Items.setSkip, Function.update_idem]
    · exact absurd rfl (hshort _ r₂ rest)

/-- A pass merges the runs two by two. -/
theorem mergePass_spec {r₁ r₂ : List α} (le : α → α → Bool) (hready : Ready s (some head) (r₁ :: r₂ :: runs))
    (hnd : (r₁ :: r₂ :: runs).flatten.Nodup) (hchunks : Chunks step (r₁ :: r₂ :: runs))
    (hstep : 0 < step) : ∃ b head' s', s.sort_skip head = some b ∧
      (∀ fuel, (r₁ :: r₂ :: runs).flatten.length < fuel →
        mergePass le fuel step head b s = some (head', s')) ∧
      Ready s' (some head') (StableMerge.mergeRuns le (r₁ :: r₂ :: runs)) := by
  have hne := hchunks.ne_nil hstep
  obtain ⟨a, A, rfl⟩ := List.exists_cons_of_ne_nil (hne r₁ (by simp))
  obtain ⟨b, B, rfl⟩ := List.exists_cons_of_ne_nil (hne r₂ (by simp))
  obtain ⟨ha, hskip, hA, hB, hrest⟩ :=
    hready.split fun r hr => hne r (List.mem_cons_of_mem _ (List.mem_cons_of_mem _ hr))
  obtain rfl := Option.some.inj ha
  have hperm := StableMerge.mergeRuns_cons_perm le (head :: A) (b :: B) runs
  have hnd_rest : runs.flatten.Nodup := by
    simp only [List.flatten_cons] at hnd
    exact (List.nodup_append.mp (List.nodup_append.mp hnd).2.1).2.1
  obtain ⟨x, head₁, tail₁, s₁, hmerge, hmerged, hready₁, hx, hseg, htail₁, hx_out⟩ :=
    merge_runs le head hA hB hrest hnd hchunks (fun t (ht : t ∈ none) => nomatch ht)
  obtain rfl : head₁ = x := Option.some.inj hseg
  obtain ⟨head', s', hrun, hplaced⟩ := followLoop_spec head₁ le hready₁ hnd_rest hchunks.tail.tail
    hstep (seg_last hmerged.chain hmerged.last) htail₁ hx_out
  have hfront : Front none head ((head :: A).merge (b :: B) le) (s.sort_skip b) s head₁ s₁ :=
    ⟨hmerged.chain, hx.symm, fun hn => absurd rfl hn, hmerged.frame, fun y _ _ => by rw [hmerged.skip]⟩
  refine ⟨b, head', s', hskip, fun fuel hfuel => ?_, Placed.ready (hfront.cons hmerged.last hx hplaced
    (hperm.nodup_iff.mpr hnd) fun p hp => nomatch hp)⟩
  have hlen := hchunks.tail.tail.length_le hstep
  unfold mergePass
  simp only [hmerge fuel hfuel, Option.bind_some]
  simp only [List.flatten_cons, List.length_append, List.length_cons] at hfuel
  exact hrun fuel fuel (by omega) (by omega)

/-- A run that is in place already. -/
theorem front_here {a : α} {l : List α} (h : Seg s.sort_next (some a) (a :: l) q)
    (hlast : ∀ p ∈ last, s.sort_next p.1 = some a ∧ s.sort_skip p.2 = some a ∧ p.2 ≠ a)
    (hhead : last = none → head = a) (p : Option α) :
    Front last head (a :: l) q s head (s.setSkip a p) := by
  refine ⟨?_, ?_, fun _ => rfl, fun _ _ _ => rfl, fun x hx _ => ?_⟩
  · have hstart : start (last.map Prod.fst) head s.sort_next = some a := by
      cases last with
      | none => exact congrArg some (hhead rfl)
      | some t => exact (hlast t rfl).1
    exact hstart.symm ▸ h
  · cases last with
    | none => exact congrArg some (hhead rfl)
    | some t =>
      obtain ⟨-, hskip, hne⟩ := hlast t rfl
      simp [start, Function.update_of_ne hne, hskip]
  · have hne : x ≠ a := fun he => hx (he ▸ List.mem_cons_self)
    exact Function.update_of_ne hne _ _

variable (le) in
/-- One pair in order, behind what came before. -/
theorem pair_spec {a b : α} (hab : Seg s.sort_next (some a) [a, b] q) (hne : a ≠ b)
    (hlast : ∀ p ∈ last, s.sort_next p.1 = some a ∧ s.sort_skip p.2 = some a ∧
      p.1 ∉ [a, b] ∧ p.2 ∉ [a, b]) (hhead : last = none → head = a) :
    ∃ tail skip_last head₁ s₁, pair le a b last head s = ((tail, skip_last), head₁, s₁) ∧
      Front last head ([a].merge [b] le) q s head₁ s₁ ∧
      ([a].merge [b] le).getLast? = some tail ∧ ([a].merge [b] le).head? = some skip_last ∧
      s₁.sort_skip skip_last = q := by
  have hb : s.sort_next a = some b := hab.2.1
  have hq : s.sort_next b = q := hab.2.2
  rw [List.cons_merge_cons, List.nil_merge, List.merge_right]
  by_cases hcmp : le a b = true
  · rw [if_pos hcmp]
    refine ⟨b, a, head, s.setSkip a q, ?_, front_here hab (fun p hp => ?_) hhead q, rfl, rfl, by simp⟩
    · simp only [pair, if_pos hcmp, hq]
    · obtain ⟨hnext, hskip, -, hout⟩ := hlast p hp
      exact ⟨hnext, hskip, fun he => hout (he ▸ by simp)⟩
  · rw [if_neg hcmp]
    cases last with
    | none =>
      refine ⟨a, b, b, ((s.setNext a q).setNext b (some a)).setSkip b q, ?_, ⟨⟨rfl, ?_, ?_⟩, rfl,
        fun hn => absurd rfl hn, fun x hx _ => ?_, fun x hx _ => ?_⟩, rfl, rfl, by simp⟩
      · simp only [pair, if_neg hcmp, hq]
      · simp
      · simp [Seg, Function.update_of_ne hne]
      · simp only [List.mem_cons, List.not_mem_nil, or_false, not_or] at hx
        simp [Function.update_of_ne hx.1, Function.update_of_ne hx.2]
      · simp only [List.mem_cons, List.not_mem_nil, or_false, not_or] at hx
        simp [Function.update_of_ne hx.1]
    | some p =>
      obtain ⟨-, -, hp, hp'⟩ := hlast p rfl
      obtain ⟨t, sl⟩ := p
      simp only [List.mem_cons, List.not_mem_nil, or_false, not_or] at hp hp'
      refine ⟨a, b, head, ((((s.setNext a q).setNext b (some a)).setNext t (some b)).setSkip sl
        (some b)).setSkip b q, ?_, ⟨⟨?_, ?_, ?_⟩, ?_, fun _ => rfl, fun x hx hxt => ?_, fun x hx hxt => ?_⟩,
        rfl, rfl, by simp⟩
      · simp only [pair, if_neg hcmp, hq]
      · simp [start]
      · simp [Function.update_of_ne (Ne.symm hp.2)]
      · simp [Seg, Function.update_of_ne (Ne.symm hp.1), Function.update_of_ne hne]
      · simp [start, Function.update_of_ne hp'.2]
      · simp only [List.mem_cons, List.not_mem_nil, or_false, not_or] at hx
        have hne' : x ≠ t := fun he => hxt (he ▸ rfl)
        simp [Function.update_of_ne hne', Function.update_of_ne hx.1, Function.update_of_ne hx.2]
      · simp only [List.mem_cons, List.not_mem_nil, or_false, not_or] at hx
        have hne' : x ≠ sl := fun he => hxt (he ▸ rfl)
        simp [Function.update_of_ne hne', Function.update_of_ne hx.1]

variable (le) in
/-- The first pass makes runs of two. -/
theorem pairLoop_spec {a : α} {l : List α} (h : Seg s.sort_next (some a) (a :: l) none)
    (hnd : (a :: l).Nodup) (hlast : ∀ p ∈ last, s.sort_next p.1 = some a ∧ s.sort_skip p.2 = some a ∧
      p.1 ∉ a :: l ∧ p.2 ∉ a :: l) (hhead : last = none → head = a) :
    ∃ head' s', (∀ fuel, l.length < fuel → pairLoop le fuel a last head s = some (head', s')) ∧
      Placed last head (StableMerge.mergeRuns le ((a :: l).map ([·]))) s head' s' := by
  induction hk : l.length using Nat.strong_induction_on generalizing a l last head s with
  | _ k ih =>
  subst hk
  match l with
  | [] =>
    have hnext : s.sort_next a = none := h.2
    have hfront : Front last head [a] none s head (s.setSkip a none) := by
      apply front_here h _ hhead
      intro p hp
      obtain ⟨htail, hskip, -, hout⟩ := hlast p hp
      exact ⟨htail, hskip, fun he => hout (he ▸ by simp)⟩
    refine ⟨head, s.setSkip a none, fun fuel hfuel => ?_, ?_⟩
    · obtain ⟨f, rfl⟩ := Nat.exists_eq_succ_of_ne_zero (Nat.zero_lt_of_lt hfuel).ne'
      simp only [pairLoop, hnext]
    · refine hfront.cons rfl rfl (Placed.nil hnext (by simp)) (by simp) fun p hp => ?_
      simpa using (hlast p hp).2.2
  | b :: l =>
    have hnext : s.sort_next a = some b := h.2.1
    have hab : Seg s.sort_next (some a) [a, b] (s.sort_next b) := ⟨rfl, hnext, rfl⟩
    have hrest : Seg s.sort_next (s.sort_next b) l none := h.2.2
    have hne : a ≠ b := fun he => (List.nodup_cons.mp hnd).1 (he ▸ by simp)
    obtain ⟨tail, skip_last, head₁, s₁, hpair, hfront, htail, hskip, hnext₁⟩ :=
      pair_spec le hab hne (fun p hp => by
        obtain ⟨h₁, h₂, h₃, h₄⟩ := hlast p hp
        exact ⟨h₁, h₂, fun hm => h₃ (List.mem_append_left l hm), fun hm => h₄ (List.mem_append_left l hm)⟩)
        hhead
    have hperm : ([a].merge [b] le ++ (StableMerge.mergeRuns le (l.map ([·]))).flatten).Perm (a :: b :: l) := by
      have := StableMerge.mergeRuns_cons_perm le [a] [b] (l.map ([·]))
      rwa [List.flatten_cons, List.flatten_cons, ← List.flatMap_def, List.flatMap_singleton'] at this
    have hrun : ∀ fuel, pairLoop le (fuel + 1) a last head s = match s.sort_next b with
        | none => some (head₁, s₁)
        | some c => pairLoop le fuel c (some (tail, skip_last)) head₁ s₁ := by
      intro fuel
      rw [pairLoop]
      simp only [hnext, hpair]
    have hout : ∀ p ∈ last, p.1 ∉ [a].merge [b] le ++ (StableMerge.mergeRuns le (l.map ([·]))).flatten ∧
        p.2 ∉ [a].merge [b] le ++ (StableMerge.mergeRuns le (l.map ([·]))).flatten := by
      intro p hp
      rw [hperm.mem_iff, hperm.mem_iff]
      exact (hlast p hp).2.2
    match l with
    | [] =>
      have hend : s.sort_next b = none := hrest
      refine ⟨head₁, s₁, fun fuel hfuel => ?_, ?_⟩
      · obtain ⟨f, rfl⟩ := Nat.exists_eq_succ_of_ne_zero (Nat.zero_lt_of_lt hfuel).ne'
        rw [Nat.succ_eq_add_one, hrun, hend]
      · have hnil : Placed (some (tail, skip_last)) head₁ [] s₁ head₁ s₁ :=
          Placed.nil ((seg_last hfront.chain htail).trans hend) (hnext₁.trans hend)
        exact hfront.cons htail hskip hnil (hperm.nodup_iff.mpr hnd) hout
    | c :: l =>
      have hc : s.sort_next b = some c := hrest.1
      have hmem : ∀ x ∈ [a].merge [b] le, x ∉ c :: l := by
        intro x hx hm
        simp only [List.mem_merge, List.mem_singleton] at hx
        obtain ⟨ha, hb⟩ := List.nodup_cons.mp hnd
        rcases hx with rfl | rfl
        · exact ha (List.mem_cons_of_mem b hm)
        · exact (List.nodup_cons.mp hb).1 hm
      have hseg : Seg s₁.sort_next (some c) (c :: l) none := by
        apply (hc ▸ hrest).congr
        intro x hx
        refine hfront.next_frame x (fun hm => hmem x hm hx) fun hp => ?_
        obtain ⟨p, hlp, rfl⟩ := Option.mem_map.mp hp
        exact (hlast p hlp).2.2.1 (List.mem_cons_of_mem a (List.mem_cons_of_mem b hx))
      have hnd_l : (c :: l).Nodup := (List.nodup_cons.mp (List.nodup_cons.mp hnd).2).2
      have hlast₁ : ∀ p ∈ some (tail, skip_last), s₁.sort_next p.1 = some c ∧ s₁.sort_skip p.2 = some c ∧
          p.1 ∉ c :: l ∧ p.2 ∉ c :: l := by
        intro p hp
        obtain rfl := Option.some.inj hp
        exact ⟨(seg_last hfront.chain htail).trans hc, hnext₁.trans hc,
          hmem tail (List.mem_of_getLast? htail), hmem skip_last (List.mem_of_mem_head? hskip)⟩
      have hhead₁ : some (tail, skip_last) = none → head₁ = c := fun hn => nomatch hn
      obtain ⟨head', s', hrest_run, hplaced⟩ := ih l.length (by simp) hseg hnd_l hlast₁ hhead₁ rfl
      refine ⟨head', s', fun fuel hfuel => ?_, hfront.cons htail hskip hplaced (hperm.nodup_iff.mpr hnd) hout⟩
      obtain ⟨f, rfl⟩ := Nat.exists_eq_succ_of_ne_zero (Nat.zero_lt_of_lt hfuel).ne'
      rw [Nat.succ_eq_add_one, hrun, hc]
      exact hrest_run f (by simp only [List.length_cons] at hfuel; omega)

end Pass

section Passes

variable {α κ : Type*} [DecidableEq α] [LinearOrder κ] {key : α → κ} {cmp : α → α → Bool}
  {s : Items α} {head : α} {l : List α} {step : Nat} {runs : List (List α)}

/-- One round of the passes. -/
theorem sortLoop_step {r₁ r₂ : List α} (hready : Ready s (some head) (r₁ :: r₂ :: runs)) (hnd : l.Nodup)
    (hruns : Runs key l step (r₁ :: r₂ :: runs)) (hcmp : ∀ x ∈ l, ∀ y ∈ l, cmp x y = le key x y) :
    ∃ head' s', (∀ fuel rounds, l.length < fuel → sortLoop cmp fuel (rounds + 1) step head s =
        if step * 2 > INT_MAX then none else sortLoop cmp fuel rounds (step * 2) head' s') ∧
      Ready s' (some head') (StableMerge.mergeRuns (le key) (r₁ :: r₂ :: runs)) := by
  obtain ⟨b, head', s', hskip, hpass, hready'⟩ :=
    mergePass_spec cmp hready (hruns.perm.nodup_iff.mpr hnd) hruns.chunks hruns.pos
  rw [hruns.mergeRuns_congr hcmp] at hready'
  refine ⟨head', s', fun fuel rounds hfuel => ?_, hready'⟩
  rw [sortLoop]
  simp only [hskip, hpass fuel (hruns.perm.length_eq.symm ▸ hfuel), Option.bind_some]

/-- The passes end with one run, by the number of runs. -/
theorem sortLoop_spec (hready : Ready s (some head) runs) (hnd : l.Nodup) (hruns : Runs key l step runs)
    (hcmp : ∀ x ∈ l, ∀ y ∈ l, cmp x y = le key x y) (hlen : l.length ≤ 2 ^ 30) :
    ∃ head' s' l', (∀ fuel rounds, l.length < fuel → runs.length < rounds →
        sortLoop cmp fuel rounds step head s = some (head', s')) ∧
      Ready s' (some head') [l'] ∧ StableSort key l l' := by
  induction hk : runs.length using Nat.strong_induction_on generalizing runs step head s with
  | _ k ih =>
  subst hk
  match runs with
  | [] => exact absurd hready.chain (by simp [Seg])
  | [r] =>
    refine ⟨head, s, r, fun fuel rounds _ hrounds => ?_, hready, hruns.done⟩
    obtain ⟨f, rfl⟩ := Nat.exists_eq_succ_of_ne_zero (Nat.zero_lt_of_lt hrounds).ne'
    simp only [sortLoop, hready.one]
  | r₁ :: r₂ :: runs =>
    obtain ⟨head₁, s₁, hrun, hready₁⟩ := sortLoop_step hready hnd hruns hcmp
    have hless : (StableMerge.mergeRuns (le key) (r₁ :: r₂ :: runs)).length < (r₁ :: r₂ :: runs).length := by
      rw [StableMerge.mergeRuns_length]
      simp only [List.length_cons]
      omega
    obtain ⟨head', s', l', hrest, hdone⟩ := ih _ hless hready₁ hruns.merge rfl
    refine ⟨head', s', l', fun fuel rounds hfuel hrounds => ?_, hdone⟩
    obtain ⟨f, rfl⟩ := Nat.exists_eq_succ_of_ne_zero (Nat.zero_lt_of_lt hrounds).ne'
    have hstep : step < l.length := hruns.lt_length
    have hfit : ¬step * 2 > INT_MAX := by
      unfold INT_MAX
      omega
    rw [Nat.succ_eq_add_one, hrun fuel f hfuel, if_neg hfit]
    exact hrest fuel f hfuel (by omega)

/-- A list that is too long comes to the pass whose step size cannot be doubled. -/
theorem sortLoop_overflows {k fuel : Nat} (rounds : Nat) (hready : Ready s (some head) runs) (hnd : l.Nodup)
    (hruns : Runs key l (2 ^ k) runs) (hcmp : ∀ x ∈ l, ∀ y ∈ l, cmp x y = le key x y) (hk : k ≤ 30)
    (hlen : 2 ^ 30 < l.length) (hfuel : l.length < fuel) :
    sortLoop cmp fuel rounds (2 ^ k) head s = none := by
  have hpow : 2 ^ k ≤ 2 ^ 30 := Nat.pow_le_pow_right (by omega) hk
  induction rounds generalizing runs k head s with
  | zero => rfl
  | succ rounds ih =>
    match runs with
    | [] => exact absurd hready.chain (by simp [Seg])
    | [r] =>
      have hr : r.length ≤ 2 ^ k := hruns.chunks.2
      have heq := hruns.perm.length_eq
      rw [List.flatten_singleton] at heq
      omega
    | r₁ :: r₂ :: runs =>
      obtain ⟨head₁, s₁, hrun, hready₁⟩ := sortLoop_step hready hnd hruns hcmp
      rw [hrun fuel rounds hfuel]
      split
      · rfl
      · next hfit =>
        have hk' : k + 1 ≤ 30 := by
          by_contra hgt
          obtain rfl : k = 30 := by omega
          exact hfit (by decide)
        rw [← pow_succ]
        exact ih hready₁ (pow_succ 2 k ▸ hruns.merge) hk' (Nat.pow_le_pow_right (by omega) hk')

/-- The run returns a list that stops, and that is `l` sorted. -/
def Sorts (key : α → κ) (l : List α) (run : Nat → Option (Option α × Items α)) : Prop :=
  ∃ head' s' l', (∀ fuel, l.length < fuel → run fuel = some (head', s')) ∧
    Seg s'.sort_next head' l' none ∧ StableSort key l l'

theorem mergeSort_sorts {pairLe mergeLe : α → α → Bool} {p : Option α} (hl : Seg s.sort_next p l none)
    (hpair : ∀ x ∈ l, ∀ y ∈ l, pairLe x y = le key x y)
    (hmerge : ∀ x ∈ l, ∀ y ∈ l, mergeLe x y = le key x y) :
    Sorts key l (fun fuel => mergeSort pairLe mergeLe fuel p s) ↔ l.length ≤ 2 ^ 30 := by
  have hnd := hl.nodup
  cases l with
  | nil =>
    obtain rfl : p = none := hl
    refine iff_of_true ⟨none, s, [], fun _ _ => rfl, rfl, ?_⟩ (Nat.zero_le _)
    exact ⟨List.Perm.refl _, List.Pairwise.nil, fun _ => rfl⟩
  | cons a l =>
    obtain rfl : p = some a := hl.1
    have hruns : Runs key (a :: l) 2 (StableMerge.mergeRuns (le key) ((a :: l).map ([·]))) :=
      (Runs.singletons key (a :: l)).merge
    obtain ⟨head₁, s₁, hpairs, hplaced⟩ :=
      pairLoop_spec pairLe hl hnd (fun p (hp : p ∈ none) => nomatch hp) (fun _ => rfl)
    have hready := hplaced.ready
    rw [(Runs.singletons key (a :: l)).mergeRuns_congr hpair] at hready
    have hrun : ∀ fuel, (a :: l).length < fuel → mergeSort pairLe mergeLe fuel (some a) s =
        (sortLoop mergeLe fuel fuel 2 head₁ s₁).map fun (head, s) => (some head, s) := by
      intro fuel hfuel
      unfold mergeSort
      simp only [hpairs fuel (by simp only [List.length_cons] at hfuel; omega), Option.bind_some]
    constructor
    · rintro ⟨head', s', l', hsome, -⟩
      by_contra hlen
      have hnone := sortLoop_overflows ((a :: l).length + 1) hready hnd (k := 1) hruns hmerge (by omega)
        (Nat.not_le.mp hlen) (Nat.lt_succ_self _)
      have := (hrun _ (Nat.lt_succ_self _)).symm.trans (hsome _ (Nat.lt_succ_self _))
      rw [show (2 : Nat) = 2 ^ 1 from rfl, hnone] at this
      cases this
    · intro hlen
      obtain ⟨head', s', l', hsort, hdone, hsorted⟩ := sortLoop_spec hready hnd hruns hmerge hlen
      refine ⟨some head', s', l', fun fuel hfuel => ?_, ?_, hsorted⟩
      · have hrounds := hruns.chunks.length_le hruns.pos
        rw [hruns.perm.length_eq] at hrounds
        refine (hrun fuel hfuel).trans ?_
        rw [hsort fuel fuel hfuel (by omega)]
        rfl
      · have hchain := hdone.chain
        rwa [List.flatten_singleton] at hchain

/-- The values of `SortableItem` are compared in one way. -/
theorem sortableItem_sorts (sort_value : α → u32) {p : Option α} (hl : Seg s.sort_next p l none) :
    Sorts (fun a => (sort_value a).toNat) l (fun fuel => SortableItem.mergeSort sort_value fuel p s) ↔
      l.length ≤ 2 ^ 30 :=
  mergeSort_sorts hl (fun _ _ _ _ => rfl) fun _ _ _ _ => rfl

/-- The priorities of `RefSingletonBase` are compared as `int` and as `u32`. -/
theorem refSingleton_sorts (final_priority : α → BitVec 32) {p : Option α} (hl : Seg s.sort_next p l none)
    (hpos : ∀ a ∈ l, 0 ≤ (final_priority a).toInt) :
    Sorts (fun a => (final_priority a).toInt) l
      (fun fuel => RefSingletonBase.mergeSort final_priority fuel p s) ↔ l.length ≤ 2 ^ 30 := by
  apply mergeSort_sorts hl (fun _ _ _ _ => rfl)
  intro x hx y hy
  have hnat : ∀ a ∈ l, (final_priority a).toInt = (final_priority a).toNat := by
    intro a ha
    have h := hpos a ha
    rw [BitVec.toInt_eq_toNat_cond] at h ⊢
    split at h
    · next hlt => rw [if_pos hlt]
    · have := (final_priority a).isLt
      omega
  simp only [BitVec.ule, StableMerge.le, hnat x hx, hnat y hy, Nat.cast_le]

/-- The merge sort of a list of any items returns the sorted list, with items of equal value in their
original order, exactly up to 2^30 items: for more the step size overflows. -/
theorem merge_sort (sort_value : α → u32) (final_priority : α → BitVec 32) {p : Option α}
    (hl : Seg s.sort_next p l none) :
    (Sorts (fun a => (sort_value a).toNat) l (fun fuel => SortableItem.mergeSort sort_value fuel p s) ↔
      l.length ≤ 2 ^ 30) ∧
    ((∀ a ∈ l, 0 ≤ (final_priority a).toInt) →
      (Sorts (fun a => (final_priority a).toInt) l
        (fun fuel => RefSingletonBase.mergeSort final_priority fuel p s) ↔ l.length ≤ 2 ^ 30)) :=
  ⟨sortableItem_sorts sort_value hl, refSingleton_sorts final_priority hl⟩

/-- The items 0 to `n - 1` in this order, with skip pointers left from before. -/
def inOrder (n : Nat) : Items Nat where
  sort_next i := if i + 1 < n then some (i + 1) else none
  sort_skip i := some i

theorem inOrder_seg (i k : Nat) : Seg (inOrder (i + k)).sort_next (if 0 < k then some i else none)
    (List.range' i k) none := by
  induction k generalizing i with
  | zero => rfl
  | succ k ih =>
    refine ⟨if_pos (Nat.succ_pos k), ?_⟩
    have hnext : (inOrder (i + (k + 1))).sort_next i = if 0 < k then some (i + 1) else none := by
      by_cases hk : 0 < k
      · rw [if_pos hk]
        exact if_pos (by omega)
      · rw [if_neg hk]
        exact if_neg (by omega)
    rw [hnext, show i + (k + 1) = i + 1 + k by omega]
    exact ih (i + 1)

theorem merge_sort_three :
    Sorts (fun a => (if a = 0 then 3 else 1 : u32).toNat) (List.range' 0 3) (fun fuel =>
      SortableItem.mergeSort (fun a => if a = 0 then 3 else 1) fuel (some 0) (inOrder 3)) ∧
    Sorts (fun a => (if a = 0 then 3 else 1 : BitVec 32).toInt) (List.range' 0 3) (fun fuel =>
      RefSingletonBase.mergeSort (fun a => if a = 0 then 3 else 1) fuel (some 0) (inOrder 3)) :=
  have h := merge_sort (fun a => if a = 0 then 3 else 1) (fun a => if a = 0 then 3 else 1)
    (inOrder_seg 0 3)
  ⟨h.1.mpr (by decide), (h.2 (by decide)).mpr (by decide)⟩

/-- The step size overflows on 2^30 + 1 items. -/
theorem not_merge_sort : ¬∀ (sort_value : Nat → u32) (s : Items Nat) (p : Option Nat) (l : List Nat),
    Seg s.sort_next p l none → Sorts (fun a => (sort_value a).toNat) l
      (fun fuel => SortableItem.mergeSort sort_value fuel p s) := by
  intro h
  have hseg := inOrder_seg 0 (2 ^ 30 + 1)
  have hlen := (sortableItem_sorts (fun _ => 0) hseg).mp (h (fun _ => 0) _ _ _ hseg)
  rw [List.length_range'] at hlen
  exact absurd hlen (by norm_num)

end Passes

end Libcat.Lang.MergeSort
