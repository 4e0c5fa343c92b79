import Mathlib.Tactic

/-!
# Objects in places

Each object is in one list of a family: the lists, the hands, the machines it can be in. `Placed` says
that nothing is in two places, or twice in one, and which objects there are.

- `Placed.move`: some objects of one place go to another one.
- `Placed.add`: a new object.
- `Placed.rest`: the lists of all places but one determine the objects of that one.
-/

namespace Libcat.Places

variable {ι α : Type*}

structure Placed (P : ι → List α) (all : α → Prop) : Prop where
  nodup : ∀ i, (P i).Nodup
  mem_iff : ∀ a, all a ↔ ∃ i, a ∈ P i
  one : ∀ {i j a}, a ∈ P i → a ∈ P j → i = j

namespace Placed

variable {P Q : ι → List α} {all : α → Prop} {i j : ι}

theorem move (h : Placed P all) (hij : i ≠ j) (xs l : List α) (hP : (P i).Perm (xs ++ l))
    (hi : (Q i).Perm l) (hj : (Q j).Perm (xs ++ P j)) (hk : ∀ k, k ≠ i → k ≠ j → Q k = P k) :
    Placed Q all := by
  have hnd := hP.nodup_iff.mp (h.nodup i)
  obtain ⟨hxs, hl, hxl⟩ := List.nodup_append.mp hnd
  have hin : ∀ {a}, a ∈ xs ∨ a ∈ l ↔ a ∈ P i := fun {a} => by rw [hP.mem_iff, List.mem_append]
  have hmj : ∀ {a}, a ∈ Q j ↔ a ∈ xs ∨ a ∈ P j := fun {a} => by rw [hj.mem_iff, List.mem_append]
  -- where an object of `Q` was
  have hwas : ∀ {k a}, a ∈ Q k → (a ∈ P k ∧ (k = i → a ∈ l)) ∨ (k = j ∧ a ∈ xs) := by
    intro k a ha
    by_cases hki : k = i
    · subst hki
      have := hi.mem_iff.mp ha
      exact .inl ⟨hin.mp (.inr this), fun _ => this⟩
    · by_cases hkj : k = j
      · subst hkj
        rcases hmj.mp ha with hax | haj
        · exact .inr ⟨rfl, hax⟩
        · exact .inl ⟨haj, fun he => absurd he hki⟩
      · rw [hk k hki hkj] at ha
        exact .inl ⟨ha, fun he => absurd he hki⟩
  refine ⟨fun k => ?_, fun a => ?_, fun {k m a} hak ham => ?_⟩
  · by_cases hki : k = i
    · subst hki
      exact hi.nodup_iff.mpr hl
    · by_cases hkj : k = j
      · subst hkj
        refine hj.nodup_iff.mpr (List.nodup_append.mpr ⟨hxs, h.nodup k, fun a ha b hb hab => ?_⟩)
        subst hab
        exact hij (h.one (hin.mp (.inl ha)) hb)
      · rw [hk k hki hkj]
        exact h.nodup k
  · rw [h.mem_iff]
    constructor
    · rintro ⟨k, ha⟩
      by_cases hki : k = i
      · subst hki
        rcases hin.mpr ha with hax | hal
        · exact ⟨j, hmj.mpr (.inl hax)⟩
        · exact ⟨k, hi.mem_iff.mpr hal⟩
      · by_cases hkj : k = j
        · subst hkj
          exact ⟨k, hmj.mpr (.inr ha)⟩
        · exact ⟨k, by rwa [hk k hki hkj]⟩
    · rintro ⟨k, ha⟩
      rcases hwas ha with ⟨ha, -⟩ | ⟨-, ha⟩
      · exact ⟨k, ha⟩
      · exact ⟨i, hin.mp (.inl ha)⟩
  · rcases hwas hak with ⟨hak, hki⟩ | ⟨rfl, hax⟩ <;> rcases hwas ham with ⟨ham, hmi⟩ | ⟨rfl, hbx⟩
    · exact h.one hak ham
    · obtain rfl := h.one hak (hin.mp (.inl hbx))
      exact absurd rfl (hxl a hbx a (hki rfl))
    · obtain rfl := h.one ham (hin.mp (.inl hax))
      exact absurd rfl (hxl a hax a (hmi rfl))
    · rfl

/-- A new object `a` in place `j`. -/
theorem add (h : Placed P all) {a : α} (ha : ¬ all a) {all' : α → Prop}
    (hall : ∀ b, all' b ↔ b = a ∨ all b) (hj : (Q j).Perm (a :: P j))
    (hk : ∀ k, k ≠ j → Q k = P k) : Placed Q all' := by
  have hnew : ∀ k, a ∉ P k := fun k hm => ha ((h.mem_iff a).mpr ⟨k, hm⟩)
  have hmem : ∀ {k b}, b ∈ Q k ↔ (k = j ∧ b = a) ∨ b ∈ P k := by
    intro k b
    by_cases hkj : k = j
    · subst hkj
      rw [hj.mem_iff, List.mem_cons]
      simp
    · rw [hk k hkj]
      simp [hkj]
  refine ⟨fun k => ?_, fun b => ?_, fun {k m b} hbk hbm => ?_⟩
  · by_cases hkj : k = j
    · subst hkj
      exact hj.nodup_iff.mpr (List.nodup_cons.mpr ⟨hnew k, h.nodup k⟩)
    · rw [hk k hkj]
      exact h.nodup k
  · rw [hall, h.mem_iff]
    constructor
    · rintro (rfl | ⟨k, hb⟩)
      · exact ⟨j, hmem.mpr (.inl ⟨rfl, rfl⟩)⟩
      · exact ⟨k, hmem.mpr (.inr hb)⟩
    · rintro ⟨k, hb⟩
      rcases hmem.mp hb with ⟨-, rfl⟩ | hb
      · exact .inl rfl
      · exact .inr ⟨k, hb⟩
  · rcases hmem.mp hbk with ⟨rfl, rfl⟩ | hbk <;> rcases hmem.mp hbm with ⟨rfl, hba⟩ | hbm
    · rfl
    · exact absurd hbm (hnew m)
    · subst hba
      exact absurd hbk (hnew k)
    · exact h.one hbk hbm

/-- One place is empty. -/
theorem of_none {P : Option ι → List α} (h : Placed P all) (hnone : P none = []) :
    Placed (fun i => P (some i)) all where
  nodup i := h.nodup (some i)
  mem_iff a := by
    rw [h.mem_iff]
    constructor
    · rintro ⟨i, ha⟩
      cases i with
      | none =>
        rw [hnone] at ha
        exact absurd ha List.not_mem_nil
      | some i => exact ⟨i, ha⟩
    · rintro ⟨i, ha⟩
      exact ⟨some i, ha⟩
  one hi hj := Option.some_injective _ (h.one hi hj)

/-- What is in the place that is left over. -/
theorem rest (hP : Placed P all) (hQ : Placed Q all) (hk : ∀ k, k ≠ j → ∀ a, a ∈ Q k → a ∈ P k) {a : α}
    (ha : a ∈ P j) : a ∈ Q j := by
  obtain ⟨k, hak⟩ := (hQ.mem_iff a).mp ((hP.mem_iff a).mpr ⟨j, ha⟩)
  by_cases hkj : k = j
  · rwa [hkj] at hak
  · exact absurd (hP.one (hk k hkj a hak) ha) hkj

end Placed

end Libcat.Places
