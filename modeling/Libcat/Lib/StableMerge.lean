import Mathlib.Tactic

/-!
# Stable merging of runs

A stable sort of a list by a key, and how a list gets there from runs of one item by merging
neighbouring runs.

- `filter_merge`: merging two runs in order keeps the items of one key in order, the first run's first.
- `Runs key l step runs`: the runs are in order, have `step` items but for the last one, and together
  are the list `l` with the items of one key in order.
- `Runs.singletons`, `Runs.merge` and `Runs.done`: where it begins, what a pass does and where it ends.
-/

namespace Libcat.StableMerge

variable {α κ : Type*} [LinearOrder κ] {key : α → κ}

/-- The comparison of two items by their keys. -/
def le (key : α → κ) (a b : α) : Bool := decide (key a ≤ key b)

/-- A permutation that is in order and keeps the items of one key in order. -/
structure StableSort (key : α → κ) (l l' : List α) : Prop where
  perm : l'.Perm l
  sorted : l'.Pairwise fun a b => key a ≤ key b
  stable : ∀ k, l'.filter (fun a => key a = k) = l.filter (fun a => key a = k)

/-- One pass over the runs. -/
def mergeRuns (le : α → α → Bool) : List (List α) → List (List α)
  | a :: b :: runs => a.merge b le :: mergeRuns le runs
  | runs => runs

/-- Runs of `step` items, of which the last one may be shorter. -/
def Chunks (step : Nat) : List (List α) → Prop
  | [] => True
  | [r] => r ≠ [] ∧ r.length ≤ step
  | r :: s :: runs => r.length = step ∧ Chunks step (s :: runs)

theorem merge_congr {le le' : α → α → Bool} {a b : List α}
    (h : ∀ x ∈ a, ∀ y ∈ b, le x y = le' x y) : a.merge b le = a.merge b le' := by
  induction a generalizing b with
  | nil => rw [List.nil_merge, List.nil_merge]
  | cons x a iha =>
    induction b with
    | nil => rw [List.merge_right, List.merge_right]
    | cons y b ihb =>
      rw [List.cons_merge_cons, List.cons_merge_cons, h x (by simp) y (by simp)]
      split
      · rw [iha fun u hu v hv => h u (List.mem_cons_of_mem x hu) v hv]
      · rw [ihb fun u hu v hv => h u hu v (List.mem_cons_of_mem y hv)]

theorem mergeRuns_congr {cmp cmp' : α → α → Bool} {runs : List (List α)}
    (h : ∀ x ∈ runs.flatten, ∀ y ∈ runs.flatten, cmp x y = cmp' x y) :
    mergeRuns cmp runs = mergeRuns cmp' runs := by
  fun_induction mergeRuns cmp runs with
  | case1 a b runs ih =>
    have hrest : mergeRuns cmp runs = mergeRuns cmp' runs := by
      apply ih
      intro x hx y hy
      simp only [List.flatten_cons, List.mem_append] at h
      exact h x (.inr (.inr hx)) y (.inr (.inr hy))
    have hab : a.merge b cmp = a.merge b cmp' := by
      apply merge_congr
      intro x hx y hy
      exact h x (by simp [hx]) y (by simp [hy])
    rw [hrest, hab]
    rfl
  | case2 runs hshort =>
    match runs with
    | [] => rfl
    | [_] => rfl
    | a :: b :: rest => exact absurd rfl (hshort a b rest)

/-- Nothing of the first run comes after an item of the second with the same key. -/
theorem filter_merge {a b : List α} (ha : a.Pairwise fun x y => key x ≤ key y)
    (hb : b.Pairwise fun x y => key x ≤ key y) (k : κ) :
    (a.merge b (le key)).filter (fun x => key x = k) =
      a.filter (fun x => key x = k) ++ b.filter (fun x => key x = k) := by
  generalize hp : (fun x => decide (key x = k)) = p
  have hpk : ∀ x, p x = true ↔ key x = k := fun x => by rw [← hp, decide_eq_true_eq]
  induction a generalizing b with
  | nil => simp
  | cons x a iha =>
    induction b with
    | nil => simp
    | cons y b ihb =>
      rw [List.cons_merge_cons]
      by_cases hle : key x ≤ key y
      · have hcmp : le key x y = true := decide_eq_true hle
        rw [if_pos hcmp]
        by_cases hx : p x = true
        · rw [List.filter_cons_of_pos hx, List.filter_cons_of_pos hx, iha (List.pairwise_cons.mp ha).2 hb]
          rfl
        · rw [List.filter_cons_of_neg hx, List.filter_cons_of_neg hx, iha (List.pairwise_cons.mp ha).2 hb]
      · have hcmp : ¬le key x y = true := by simpa [le] using hle
        rw [if_neg hcmp]
        by_cases hy : p y = true
        · -- what is left of the first run has larger keys
          have hnone : (x :: a).filter p = [] := by
            apply List.filter_eq_nil_iff.mpr
            intro z hz
            have hxz : key x ≤ key z := by
              rcases List.mem_cons.mp hz with rfl | hz
              · exact le_rfl
              · exact (List.pairwise_cons.mp ha).1 z hz
            have hlt : k < key z := (hpk y).mp hy ▸ (not_le.mp hle).trans_le hxz
            exact fun hpz => hlt.ne' ((hpk z).mp hpz)
          rw [List.filter_cons_of_pos hy, ihb (List.pairwise_cons.mp hb).2, hnone,
            List.filter_cons_of_pos hy]
          rfl
        · rw [List.filter_cons_of_neg hy, ihb (List.pairwise_cons.mp hb).2, List.filter_cons_of_neg hy]

theorem sorted_merge {a b : List α} (ha : a.Pairwise fun x y => key x ≤ key y)
    (hb : b.Pairwise fun x y => key x ≤ key y) :
    (a.merge b (le key)).Pairwise fun x y => key x ≤ key y := by
  have htrans : ∀ x y z, le key x y → le key y z → le key x z := by
    simp only [le, decide_eq_true_eq]
    exact fun _ _ _ => le_trans
  have htotal : ∀ x y, (le key x y || le key y x) = true := by
    simpa [le] using fun x y => le_total (key x) (key y)
  have h := List.pairwise_merge htrans htotal a b (by simpa [le] using ha) (by simpa [le] using hb)
  simpa [le] using h

variable {step : Nat} {runs : List (List α)} {cmp : α → α → Bool}

theorem mergeRuns_perm : (mergeRuns cmp runs).flatten.Perm runs.flatten := by
  fun_induction mergeRuns cmp runs with
  | case1 a b runs ih =>
    rw [List.flatten_cons, List.flatten_cons, List.flatten_cons, ← List.append_assoc]
    exact (List.merge_perm_append cmp).append ih
  | case2 runs => exact List.Perm.refl _

theorem mergeRuns_cons_perm (cmp : α → α → Bool) (a b : List α) (runs : List (List α)) :
    (a.merge b cmp ++ (mergeRuns cmp runs).flatten).Perm (a :: b :: runs).flatten := by
  have h : (mergeRuns cmp (a :: b :: runs)).flatten.Perm (a :: b :: runs).flatten := mergeRuns_perm
  exact h

theorem mergeRuns_length : (mergeRuns cmp runs).length = (runs.length + 1) / 2 := by
  fun_induction mergeRuns cmp runs with
  | case1 a b runs ih =>
    rw [List.length_cons, List.length_cons, List.length_cons, ih]
    omega
  | case2 runs hshort =>
    match runs with
    | [] | [_] => simp
    | a :: b :: rest => exact absurd rfl (hshort a b rest)

theorem Chunks.ne_nil (h : Chunks step runs) (hstep : 0 < step) : ∀ r ∈ runs, r ≠ [] := by
  fun_induction Chunks step runs with
  | case1 => exact fun r hr => absurd hr List.not_mem_nil
  | case2 r =>
    intro s hs
    obtain rfl := List.mem_singleton.mp hs
    exact h.1
  | case3 r s runs ih =>
    intro t ht
    rcases List.mem_cons.mp ht with rfl | ht
    · rintro rfl
      exact hstep.ne h.1
    · exact ih h.2 t ht

theorem Chunks.length_le (h : Chunks step runs) (hstep : 0 < step) :
    runs.length ≤ runs.flatten.length := by
  have hne := h.ne_nil hstep
  clear h
  induction runs with
  | nil => exact le_rfl
  | cons r runs ih =>
    have hr : 0 < r.length := List.length_pos_iff.mpr (hne r (by simp))
    have := ih fun s hs => hne s (List.mem_cons_of_mem r hs)
    rw [List.flatten_cons, List.length_append, List.length_cons]
    omega

/-- With two runs there are more than `step` items. -/
theorem Chunks.lt_length {r s : List α} (h : Chunks step (r :: s :: runs)) (hstep : 0 < step) :
    step < (r :: s :: runs).flatten.length := by
  have hs : s ≠ [] := h.ne_nil hstep s (by simp)
  have hpos : 0 < s.length := List.length_pos_iff.mpr hs
  have hr := h.1
  simp only [List.flatten_cons, List.length_append]
  omega

theorem Chunks.tail {r : List α} (h : Chunks step (r :: runs)) : Chunks step runs := by
  cases runs with
  | nil => trivial
  | cons s runs => exact h.2

/-- What there is in front of a further run has `step` items. -/
theorem Chunks.head {r : List α} (h : Chunks step (r :: runs)) : r.length ≤ step ∧
    (runs = [] ∨ r.length = step) := by
  cases runs with
  | nil => exact ⟨h.2, .inl rfl⟩
  | cons s runs => exact ⟨h.1.le, .inr h.1⟩

theorem Chunks.cons {r : List α} (h : Chunks step runs) (hne : r ≠ []) (hle : r.length ≤ step)
    (hfull : runs = [] ∨ r.length = step) : Chunks step (r :: runs) := by
  cases runs with
  | nil => exact ⟨hne, hle⟩
  | cons s runs => exact ⟨hfull.resolve_left (List.cons_ne_nil s runs), h⟩

theorem Chunks.merge (h : Chunks step runs) (hstep : 0 < step) :
    Chunks (step * 2) (mergeRuns cmp runs) := by
  fun_induction mergeRuns cmp runs with
  | case1 a b runs ih =>
    have ha : a.length = step := h.1
    obtain ⟨hle, hfull⟩ := h.tail.head
    apply Chunks.cons (ih h.tail.tail)
    · rw [← List.length_pos_iff, List.length_merge]
      omega
    · rw [List.length_merge]
      omega
    · rw [List.length_merge]
      rcases hfull with rfl | hb
      · exact .inl rfl
      · exact .inr (by omega)
  | case2 runs hshort =>
    match runs with
    | [] => trivial
    | [r] => exact ⟨h.1, h.2.trans (by omega)⟩
    | a :: b :: rest => exact absurd rfl (hshort a b rest)

/-- The runs in the middle of the sort of `l`. -/
structure Runs (key : α → κ) (l : List α) (step : Nat) (runs : List (List α)) : Prop where
  pos : 0 < step
  chunks : Chunks step runs
  perm : runs.flatten.Perm l
  sorted : ∀ r ∈ runs, r.Pairwise fun a b => key a ≤ key b
  stable : ∀ k, runs.flatten.filter (fun a => key a = k) = l.filter (fun a => key a = k)

theorem chunks_singletons (l : List α) : Chunks 1 (l.map ([·])) := by
  induction l with
  | nil => trivial
  | cons a l ih => exact ih.cons (by simp) le_rfl (.inr rfl)

theorem Runs.singletons (key : α → κ) (l : List α) : Runs key l 1 (l.map ([·])) where
  pos := Nat.one_pos
  chunks := chunks_singletons l
  perm := by rw [← List.flatMap_def, List.flatMap_singleton']
  sorted := by
    intro r hr
    obtain ⟨a, -, rfl⟩ := List.mem_map.mp hr
    exact List.pairwise_singleton _ a
  stable k := by rw [← List.flatMap_def, List.flatMap_singleton']

theorem filter_mergeRuns (h : ∀ r ∈ runs, r.Pairwise fun a b => key a ≤ key b) (k : κ) :
    (mergeRuns (le key) runs).flatten.filter (fun a => key a = k) =
      runs.flatten.filter (fun a => key a = k) := by
  fun_induction mergeRuns (le key) runs with
  | case1 a b runs ih =>
    have hab := filter_merge (h a (by simp)) (h b (by simp)) k
    simp only [List.flatten_cons, List.filter_append, hab,
      ih fun r hr => h r (List.mem_cons_of_mem _ (List.mem_cons_of_mem _ hr)), List.append_assoc]
  | case2 runs => rfl

theorem sorted_mergeRuns (h : ∀ r ∈ runs, r.Pairwise fun a b => key a ≤ key b) :
    ∀ r ∈ mergeRuns (le key) runs, r.Pairwise fun a b => key a ≤ key b := by
  fun_induction mergeRuns (le key) runs with
  | case1 a b runs ih =>
    intro r hr
    rcases List.mem_cons.mp hr with rfl | hr
    · exact sorted_merge (h a (by simp)) (h b (by simp))
    · exact ih (fun s hs => h s (List.mem_cons_of_mem _ (List.mem_cons_of_mem _ hs))) r hr
  | case2 runs => exact h

variable {l : List α}

theorem Runs.merge (h : Runs key l step runs) : Runs key l (step * 2) (mergeRuns (le key) runs) where
  pos := Nat.mul_pos h.pos Nat.two_pos
  chunks := h.chunks.merge h.pos
  perm := mergeRuns_perm.trans h.perm
  sorted := sorted_mergeRuns h.sorted
  stable k := (filter_mergeRuns h.sorted k).trans (h.stable k)

/-- A comparison that goes by the keys of the items of `l`. -/
theorem Runs.mergeRuns_congr (h : Runs key l step runs) (hcmp : ∀ x ∈ l, ∀ y ∈ l, cmp x y = le key x y) :
    mergeRuns cmp runs = mergeRuns (le key) runs :=
  StableMerge.mergeRuns_congr fun x hx y hy => hcmp x (h.perm.mem_iff.mp hx) y (h.perm.mem_iff.mp hy)

/-- One run is the sorted list. -/
theorem Runs.done {r : List α} (h : Runs key l step [r]) : StableSort key l r where
  perm := by simpa using h.perm
  sorted := h.sorted r (by simp)
  stable := by simpa using h.stable

/-- With a second run there are more items than a run has. -/
theorem Runs.lt_length {r s : List α} (h : Runs key l step (r :: s :: runs)) : step < l.length :=
  h.perm.length_eq ▸ h.chunks.lt_length h.pos

end Libcat.StableMerge
