import Libcat.Lib.Intrusive

/-!
# Batches

`BatchSet`: a list of objects through their `batch_next` pointers, by its two ends. `Holds` relates
the ends and the pointers to the list; `Holds.pushBack` and `Holds.other` say what `PushBack` does to
the list and to every other one.
-/

namespace Libcat.Mem

open Intrusive

variable {α : Type} [DecidableEq α]

structure BatchSet (α : Type) where
  head : Option α
  tail : Option α

/-- `Clear`. -/
def BatchSet.clear : BatchSet α := ⟨none, none⟩

/-- `PushBack` of one object: the pointers and the set. -/
def BatchSet.pushBack (next : α → Option α) (set : BatchSet α) (single : α) :
    (α → Option α) × BatchSet α :=
  match set.tail with
  | some tail =>
    (Function.update (Function.update next tail (some single)) single none,
      ⟨set.head, some single⟩)
  | none => (Function.update next single none, ⟨some single, some single⟩)

/-- The body of the `ReleaseBatch` of the allocators: the pointers and the new `_release_head`. -/
def BatchSet.release (next : α → Option α) (releaseHead : Option α) (set : BatchSet α) :
    (α → Option α) × Option α :=
  match set.head, set.tail with
  | some head, some tail => (Function.update next tail releaseHead, some head)
  | _, _ => (next, releaseHead)

/-- The set is the list `l`. -/
structure BatchSet.Holds (next : α → Option α) (set : BatchSet α) (l : List α) : Prop where
  seg : Seg next set.head l none
  tail : set.tail = l.getLast?

instance (next : α → Option α) (set : BatchSet α) (l : List α) : Decidable (BatchSet.Holds next set l) :=
  decidable_of_iff (Seg next set.head l none ∧ set.tail = l.getLast?)
    ⟨fun h => ⟨h.1, h.2⟩, fun h => ⟨h.seg, h.tail⟩⟩

omit [DecidableEq α] in
theorem BatchSet.holds_clear (next : α → Option α) : BatchSet.Holds next BatchSet.clear [] :=
  ⟨rfl, rfl⟩

namespace BatchSet.Holds

variable {next : α → Option α} {set : BatchSet α} {l : List α}

omit [DecidableEq α] in
/-- A list that is not empty ends in its tail. -/
theorem eq_concat (h : Holds next set l) {t : α} (ht : set.tail = some t) :
    ∃ l', l = l' ++ [t] := by
  rw [h.tail] at ht
  obtain ⟨l', rfl⟩ := List.getLast?_eq_some_iff.mp ht
  exact ⟨l', rfl⟩

omit [DecidableEq α] in
theorem nil_of_tail (h : Holds next set l) (ht : set.tail = none) : l = [] := by
  rw [h.tail] at ht
  exact List.getLast?_eq_none_iff.mp ht

theorem pushBack (h : Holds next set l) (hnd : l.Nodup) {a : α} (ha : a ∉ l) :
    Holds (set.pushBack next a).1 (set.pushBack next a).2 (l ++ [a]) := by
  unfold BatchSet.pushBack
  cases ht : set.tail with
  | none =>
    obtain rfl := h.nil_of_tail ht
    refine ⟨⟨rfl, ?_⟩, rfl⟩
    dsimp only
    rw [Function.update_self]
    rfl
  | some t =>
    obtain ⟨l', rfl⟩ := h.eq_concat ht
    exact ⟨h.seg.snoc hnd ha, by simp⟩

/-- Lists that share nothing with the set and the object stay as they are. -/
theorem other (h : Holds next set l) {a : α} {m : List α} {p q : Option α}
    (hm : Seg next p m q) (hl : ∀ b ∈ m, b ∉ l) (ha : a ∉ m) :
    Seg (set.pushBack next a).1 p m q := by
  unfold BatchSet.pushBack
  cases ht : set.tail with
  | none => exact hm.frame ha
  | some t =>
    obtain ⟨l', rfl⟩ := h.eq_concat ht
    exact (hm.frame fun htm => hl t htm (by simp)).frame ha

/-- A pointer of an object that is neither in the list nor pushed. -/
theorem pushBack_next (h : Holds next set l) {a b : α} (hb : b ∉ l) (hba : b ≠ a) :
    (set.pushBack next a).1 b = next b := by
  unfold BatchSet.pushBack
  cases ht : set.tail with
  | none =>
    simp only
    rw [Function.update_of_ne hba]
  | some t =>
    obtain ⟨l', rfl⟩ := h.eq_concat ht
    simp only
    rw [Function.update_of_ne hba, Function.update_of_ne (fun he => hb (by simp [he]))]

/-- The set goes in front of the free list. -/
theorem release (h : Holds next set l) (hnd : l.Nodup) {releaseHead : Option α} {m : List α}
    (hm : Seg next releaseHead m none) (hl : ∀ a ∈ l, a ∉ m) :
    Seg (set.release next releaseHead).1 (set.release next releaseHead).2 (l ++ m) none := by
  unfold BatchSet.release
  cases l with
  | nil =>
    rw [h.seg.head]
    exact hm
  | cons a l =>
    have hhead := h.seg.head
    cases ht : set.tail with
    | none => exact absurd (h.nil_of_tail ht) (List.cons_ne_nil a l)
    | some t =>
      obtain ⟨l', hl'⟩ := h.eq_concat ht
      have hseg := h.seg
      rw [hl'] at hseg hnd ⊢
      rw [hhead] at hseg
      simp only [hhead, List.head?_cons]
      exact hseg.splice hnd hm (hl t (by simp [hl']))

/-- Only the last pointer of the set changes. -/
theorem release_next (h : Holds next set l) {releaseHead : Option α} {a : α} (ha : a ∉ l) :
    (set.release next releaseHead).1 a = next a := by
  unfold BatchSet.release
  cases hh : set.head with
  | none => rfl
  | some b =>
    cases ht : set.tail with
    | none => rfl
    | some t =>
      obtain ⟨l', rfl⟩ := h.eq_concat ht
      exact Function.update_of_ne (fun he => ha (by simp [he])) _ _

end BatchSet.Holds

end Libcat.Mem
