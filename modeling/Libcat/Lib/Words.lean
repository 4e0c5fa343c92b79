import Mathlib.Data.List.Basic
import Mathlib.Tactic

/-!
# Words of a list

`words p l`: the longest runs of elements with `p`, in order. Lists joined from such runs, with one
separator between two of them, are the lists that their words give back:

- `words_intercalate`: joining loses nothing.
- `splitOn_of_eq_intercalate`: where a separator is, the words before it and after it are joined, too.
-/

namespace Libcat.Words

variable {α : Type*} {p : α → Bool} {l m w : List α} {x : α}

/-- The longest runs of elements with `p`. -/
def words (p : α → Bool) (l : List α) : List (List α) :=
  (l.splitOnP fun x => !p x).filter fun w => !w.isEmpty

@[simp] theorem words_nil (p : α → Bool) : words p [] = [] := rfl

theorem words_append_cons (l m : List α) (hx : p x = false) :
    words p (l ++ x :: m) = words p l ++ words p m := by
  rw [words, List.splitOnP_append_cons _ _ (by rw [hx]; rfl), List.filter_append]
  rfl

theorem words_of_forall (hw : ∀ x ∈ w, p x = true) (hne : w ≠ []) : words p w = [w] := by
  rw [words, List.splitOnP_eq_singleton fun x hx => by rw [hw x hx]; rfl]
  simp [hne]

/-- A word is not empty and has only elements with `p`. -/
theorem mem_words (hw : w ∈ words p l) : w ≠ [] ∧ ∀ x ∈ w, p x = true := by
  obtain ⟨hmem, hne⟩ := List.mem_filter.mp hw
  refine ⟨by simpa using hne, ?_⟩
  clear hne hw
  induction l generalizing w with
  | nil =>
    rw [List.splitOnP_nil, List.mem_singleton] at hmem
    rw [hmem]
    simp
  | cons x l ih =>
    rw [List.splitOnP_cons_eq_if_modifyHead] at hmem
    cases hx : p x with
    | false =>
      rw [hx, Bool.not_false, if_pos rfl, List.mem_cons] at hmem
      rcases hmem with rfl | hmem
      · simp
      · exact ih hmem
    | true =>
      rw [hx, Bool.not_true, if_neg Bool.false_ne_true] at hmem
      obtain ⟨first, rest, hsplit⟩ :=
        List.exists_cons_of_ne_nil (List.splitOnP_ne_nil (fun x => !p x) l)
      rw [hsplit, List.modifyHead_cons, List.mem_cons] at hmem
      rw [hsplit] at ih
      rcases hmem with rfl | hmem
      · rw [List.forall_mem_cons]
        exact ⟨hx, ih (List.mem_cons_self ..)⟩
      · exact ih (List.mem_cons_of_mem _ hmem)

section Join

variable {sep : α} {ws : List (List α)}

theorem intercalate_concat (sep : α) (ws : List (List α)) (w : List α) :
    [sep].intercalate (ws ++ [w]) =
      [sep].intercalate ws ++ (if ws = [] then [] else [sep]) ++ w := by
  induction ws with
  | nil => simp
  | cons v ws ih =>
    rw [List.cons_append, List.intercalate_cons_of_ne_nil (by simp), ih]
    by_cases hws : ws = []
    · simp [hws]
    · rw [List.intercalate_cons_of_ne_nil hws]
      simp [hws]

theorem map_intercalate {β : Type*} (f : α → β) (sep : α) (ws : List (List α)) :
    ([sep].intercalate ws).map f = [f sep].intercalate (ws.map (List.map f)) := by
  induction ws with
  | nil => rfl
  | cons v ws ih =>
    by_cases hws : ws = []
    · simp [hws]
    · rw [List.intercalate_cons_of_ne_nil hws, List.map_append, List.map_append, ih,
        List.map_cons (f := List.map f), List.intercalate_cons_of_ne_nil (by simpa using hws)]
      rfl

/-- An element of a joined list is the separator or in a word. -/
theorem mem_intercalate (hx : x ∈ [sep].intercalate ws) : x = sep ∨ ∃ w ∈ ws, x ∈ w := by
  induction ws with
  | nil => simp at hx
  | cons v ws ih =>
    by_cases hws : ws = []
    · rw [hws, List.intercalate_singleton] at hx
      exact .inr ⟨v, List.mem_cons_self .., hx⟩
    · rw [List.intercalate_cons_of_ne_nil hws, List.mem_append, List.mem_append,
        List.mem_singleton] at hx
      rcases hx with (hx | hx) | hx
      · exact .inr ⟨v, List.mem_cons_self .., hx⟩
      · exact .inl hx
      · obtain hsep | ⟨w, hw, hxw⟩ := ih hx
        · exact .inl hsep
        · exact .inr ⟨w, List.mem_cons_of_mem _ hw, hxw⟩

/-- Words: not empty, and of elements with `p`. -/
def Wordy (p : α → Bool) (ws : List (List α)) : Prop := ∀ w ∈ ws, w ≠ [] ∧ ∀ x ∈ w, p x = true

theorem wordy_words (p : α → Bool) (l : List α) : Wordy p (words p l) := fun _ hw => mem_words hw

theorem Wordy.map (h : Wordy p ws) {f : α → α} (hf : ∀ x, p x = true → p (f x) = true) :
    Wordy p (ws.map (List.map f)) := by
  intro v hv
  obtain ⟨w, hw, rfl⟩ := List.mem_map.mp hv
  refine ⟨by simpa using (h w hw).1, fun y hy => ?_⟩
  obtain ⟨x, hx, rfl⟩ := List.mem_map.mp hy
  exact hf x ((h w hw).2 x hx)

theorem words_intercalate (h : Wordy p ws) (hsep : p sep = false) :
    words p ([sep].intercalate ws) = ws := by
  induction ws with
  | nil => rfl
  | cons v ws ih =>
    have hv := h v (List.mem_cons_self ..)
    have hrest : Wordy p ws := fun w hw => h w (List.mem_cons_of_mem _ hw)
    by_cases hws : ws = []
    · rw [hws, List.intercalate_singleton, words_of_forall hv.2 hv.1]
    · rw [List.intercalate_cons_of_ne_nil hws, List.append_assoc, List.singleton_append,
        words_append_cons _ _ hsep, words_of_forall hv.2 hv.1, ih hrest, List.singleton_append]

variable [DecidableEq α]

/-- The words before a separator and after it. -/
theorem splitOn_of_eq_intercalate (h : Wordy p ws) (hsep : p sep = false)
    (heq : [sep].intercalate ws = l ++ sep :: m) : ws = l.splitOn sep ++ m.splitOn sep := by
  have hne : ws ≠ [] := by
    rintro rfl
    simp at heq
  have hnot : ∀ w ∈ ws, sep ∉ w := fun w hw hmem => by
    have := (h w hw).2 sep hmem
    rw [hsep] at this
    cases this
  rw [← List.splitOn_intercalate sep hnot hne, heq, List.splitOn_append_cons_self]

/-- What is before a separator is joined from words. -/
theorem intercalate_words_before (h : Wordy p ws) (hsep : p sep = false)
    (heq : [sep].intercalate ws = l ++ sep :: m) : [sep].intercalate (words p l) = l := by
  have hsplit := splitOn_of_eq_intercalate h hsep heq
  have hwordy : Wordy p (l.splitOn sep) := fun w hw =>
    h w (by rw [hsplit]; exact List.mem_append_left _ hw)
  have hl : [sep].intercalate (l.splitOn sep) = l := List.intercalate_splitOn sep
  have hwords : words p l = l.splitOn sep := by
    rw [← words_intercalate hwordy hsep, hl]
  rw [hwords, hl]

/-- A separator has a word before it and one behind it. -/
theorem neighbours_of_eq_intercalate (h : Wordy p ws) (hsep : p sep = false)
    (heq : [sep].intercalate ws = l ++ sep :: m) :
    l ≠ [] ∧ m ≠ [] ∧ m.head? ≠ some sep := by
  have hsplit := splitOn_of_eq_intercalate h hsep heq
  have hnil : [] ∉ ws := fun hmem => (h [] hmem).1 rfl
  rw [hsplit, List.mem_append, not_or] at hnil
  refine ⟨?_, ?_, fun hhead => ?_⟩
  · rintro rfl
    exact hnil.1 (List.mem_singleton_self _)
  · rintro rfl
    exact hnil.2 (List.mem_singleton_self _)
  · obtain ⟨m', rfl⟩ := List.head?_eq_some_iff.mp hhead
    have hsep' : ([] ++ sep :: m').splitOn sep = [[]] ++ m'.splitOn sep :=
      List.splitOn_append_cons_self [] m'
    rw [List.nil_append] at hsep'
    exact hnil.2 (by rw [hsep']; exact List.mem_append_left _ (List.mem_singleton_self _))

end Join

end Libcat.Words
