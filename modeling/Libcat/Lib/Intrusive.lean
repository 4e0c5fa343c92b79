import Mathlib.Tactic

/-!
# Lists through next pointers

The objects of a list carry the pointer to the next one. `Seg next p l q` says that from `p` the
pointers lead through the objects of `l`, in order, to `q`.

- `Seg.frame`: a write to an object that is not on the way changes nothing.
- `Seg.snoc`: one more object at the end of a list that stops.
- `Seg.splice`, `Seg.cutAfter`: two lists become one, and a list two.
- `Seg.unlink`: the pointer before an object takes over its pointer.
- `Seg.unique`: a head leads through one list only.
- `Linked` is a list with pointers in both directions; `Linked.pushFront` and `Linked.unlink` are the
  changes that are made to it.
-/

namespace Libcat.Intrusive

variable {α : Type*}

/-- The pointers lead from `p` through `l` to `q`. -/
def Seg (next : α → Option α) : Option α → List α → Option α → Prop
  | p, [], q => p = q
  | p, a :: l, q => p = some a ∧ Seg next (next a) l q

instance Seg.decidable [DecidableEq α] (next : α → Option α) : ∀ p l q, Decidable (Seg next p l q)
  | p, [], q => inferInstanceAs (Decidable (p = q))
  | p, a :: l, q =>
    have := Seg.decidable next (next a) l q
    inferInstanceAs (Decidable (_ ∧ _))

theorem Seg.append {next : α → Option α} {l m : List α} {p q : Option α} :
    Seg next p (l ++ m) q ↔ ∃ r, Seg next p l r ∧ Seg next r m q := by
  induction l generalizing p with
  | nil => simp [Seg]
  | cons a l ih =>
    simp only [List.cons_append, Seg, ih]
    constructor
    · rintro ⟨rfl, r, h1, h2⟩
      exact ⟨r, ⟨rfl, h1⟩, h2⟩
    · rintro ⟨r, ⟨rfl, h1⟩, h2⟩
      exact ⟨rfl, r, h1, h2⟩

/-- A segment depends on the pointers of its objects only. -/
theorem Seg.congr {next next' : α → Option α} {l : List α} (h : ∀ a ∈ l, next' a = next a) :
    ∀ {p q : Option α}, Seg next p l q → Seg next' p l q := by
  induction l with
  | nil => exact id
  | cons a l ih =>
    rintro p q ⟨rfl, hl⟩
    refine ⟨rfl, ?_⟩
    rw [h a (by simp)]
    exact ih (fun b hb => h b (by simp [hb])) hl

theorem Seg.frame [DecidableEq α] {next : α → Option α} {l : List α} {p q x : Option α} {a : α}
    (ha : a ∉ l) (h : Seg next p l q) : Seg (Function.update next a x) p l q := by
  refine h.congr fun b hb => ?_
  have hne : b ≠ a := fun he => ha (he ▸ hb)
  rw [Function.update_of_ne hne]

/-- The head of a list that stops is its first object. -/
theorem Seg.head {next : α → Option α} {l : List α} {p : Option α} (h : Seg next p l none) :
    p = l.head? := by
  cases l with
  | nil => exact h
  | cons a l => exact h.1

theorem Seg.unique {next : α → Option α} {l : List α} :
    ∀ {m : List α} {p : Option α}, Seg next p l none → Seg next p m none → l = m := by
  induction l with
  | nil =>
    rintro m p rfl hm
    cases m with
    | nil => rfl
    | cons b m => exact absurd hm.1 (by simp)
  | cons a l ih =>
    rintro m p ⟨rfl, hl⟩ hm
    cases m with
    | nil => exact absurd hm (by simp [Seg])
    | cons b m =>
      obtain ⟨hb, hm⟩ := hm
      obtain rfl := Option.some.inj hb
      rw [ih hl hm]

/-- A list that stops has each object once. -/
theorem Seg.nodup {next : α → Option α} {l : List α} {p : Option α} (h : Seg next p l none) : l.Nodup := by
  induction l generalizing p with
  | nil => exact List.nodup_nil
  | cons a l ih =>
    refine List.nodup_cons.mpr ⟨fun ha => ?_, ih h.2⟩
    obtain ⟨l₁, l₂, rfl⟩ := List.append_of_mem ha
    obtain ⟨r, -, -, htail⟩ := Seg.append.mp h.2
    have heq := congrArg List.length (Seg.unique h.2 htail)
    simp only [List.length_append, List.length_cons] at heq
    omega

/-- One more object at the end. -/
theorem Seg.snoc [DecidableEq α] {next : α → Option α} {l : List α} {p : Option α} {t v : α}
    (h : Seg next p (l ++ [t]) none) (hnd : (l ++ [t]).Nodup) (hv : v ∉ l ++ [t]) :
    Seg (Function.update (Function.update next t (some v)) v none) p (l ++ [t] ++ [v]) none := by
  rw [List.mem_append, List.mem_singleton, not_or] at hv
  have ht : t ∉ l := fun ht => (List.nodup_append.mp hnd).2.2 t ht t (by simp) rfl
  obtain ⟨r, hl, hr⟩ := Seg.append.mp h
  rw [List.append_assoc]
  refine Seg.append.mpr ⟨r, (hl.frame ht).frame hv.1, hr.1, ?_, ?_⟩
  · rw [Function.update_of_ne (Ne.symm hv.2), Function.update_self]
  · rw [Function.update_self]
    rfl

/-- The last object of a list takes over the pointer to another list. -/
theorem Seg.splice [DecidableEq α] {next : α → Option α} {l m : List α} {p q : Option α} {t : α}
    (h : Seg next p (l ++ [t]) none) (hnd : (l ++ [t]).Nodup) (hm : Seg next q m none) (ht : t ∉ m) :
    Seg (Function.update next t q) p (l ++ [t] ++ m) none := by
  have htl : t ∉ l := fun ht => (List.nodup_append.mp hnd).2.2 t ht t (by simp) rfl
  obtain ⟨r, hl, hr⟩ := Seg.append.mp h
  rw [List.append_assoc]
  refine Seg.append.mpr ⟨r, hl.frame htl, hr.1, ?_⟩
  rw [Function.update_self]
  exact hm.frame ht

/-- A list is cut behind one of its objects. -/
theorem Seg.cutAfter [DecidableEq α] {next : α → Option α} {l m : List α} {p : Option α} {t : α}
    (h : Seg next p (l ++ [t] ++ m) none) :
    Seg (Function.update next t none) p (l ++ [t]) none ∧
      Seg (Function.update next t none) (next t) m none := by
  have hnd := h.nodup
  rw [List.append_assoc, List.singleton_append] at h hnd
  have htl : t ∉ l := fun ht => (List.nodup_append.mp hnd).2.2 t ht t (by simp) rfl
  have htm : t ∉ m := (List.nodup_cons.mp (List.nodup_append.mp hnd).2.1).1
  obtain ⟨r, hl, hr, hm⟩ := Seg.append.mp h
  refine ⟨Seg.append.mpr ⟨r, hl.frame htl, hr, ?_⟩, hm.frame htm⟩
  rw [Function.update_self]
  rfl

/-- An object leaves the list: the one before it takes over its pointer. -/
theorem Seg.unlink [DecidableEq α] {next : α → Option α} {l m : List α} {p q : Option α} {a b : α}
    (h : Seg next p (l ++ b :: a :: m) q) (hnd : (l ++ b :: a :: m).Nodup) :
    Seg (Function.update next b (next a)) p (l ++ b :: m) q := by
  have hl : b ∉ l := fun hb => (List.nodup_append.mp hnd).2.2 b hb b (by simp) rfl
  have hm : b ∉ m := by
    have := (List.nodup_append.mp hnd).2.1
    simp only [List.nodup_cons, List.mem_cons, not_or] at this
    exact this.1.2
  obtain ⟨r, hseg, rfl, -, hrest⟩ := Seg.append.mp h
  refine Seg.append.mpr ⟨_, hseg.frame hl, rfl, ?_⟩
  rw [Function.update_self]
  exact hrest.frame hm

/-- The pointers of an object in the middle. -/
theorem Seg.next_eq {next : α → Option α} {l m : List α} {p : Option α} {a : α}
    (h : Seg next p (l ++ a :: m) none) : next a = m.head? := by
  obtain ⟨r, -, -, hrest⟩ := Seg.append.mp h
  exact hrest.head

/-- A write to the object a pointer leads to, if there is one. -/
def write [DecidableEq α] (f : α → Option α) : Option α → Option α → α → Option α
  | some b, x => Function.update f b x
  | none, _ => f

/-- The pointers lead through `l` from its head, and back from its end. -/
structure Linked (next prev : α → Option α) (head : Option α) (l : List α) : Prop where
  next : Seg next head l none
  prev : Seg prev l.getLast? l.reverse none

theorem linked_nil (next prev : α → Option α) : Linked next prev none [] := ⟨rfl, rfl⟩

theorem Linked.prev_eq {next prev : α → Option α} {head : Option α} {l m : List α} {a : α}
    (h : Linked next prev head (l ++ a :: m)) : prev a = l.getLast? := by
  have hseg := h.prev
  rw [List.reverse_append, List.reverse_cons, List.append_assoc, List.singleton_append] at hseg
  rw [hseg.next_eq, List.head?_reverse]

/-- A list depends on the pointers of its objects only. -/
theorem Linked.congr {next prev next' prev' : α → Option α} {head : Option α} {l : List α}
    (h : Linked next prev head l) (hn : ∀ a ∈ l, next' a = next a)
    (hp : ∀ a ∈ l, prev' a = prev a) : Linked next' prev' head l :=
  ⟨h.next.congr hn, h.prev.congr fun a ha => hp a (List.mem_reverse.mp ha)⟩

theorem Linked.mem_of_head {next prev : α → Option α} {head : Option α} {l : List α} {a : α}
    (h : Linked next prev head l) (ha : head = some a) : a ∈ l := by
  rw [h.next.head] at ha
  exact List.mem_of_mem_head? ha

/-- The pointers of an object of a list lead to objects of the list. -/
theorem Linked.mem_of_next {next prev : α → Option α} {head : Option α} {l : List α} {a b : α}
    (h : Linked next prev head l) (ha : a ∈ l) (hb : next a = some b) : b ∈ l := by
  obtain ⟨l, m, rfl⟩ := List.append_of_mem ha
  rw [h.next.next_eq] at hb
  have := List.mem_of_mem_head? hb
  simp [this]

theorem Linked.mem_of_prev {next prev : α → Option α} {head : Option α} {l : List α} {a b : α}
    (h : Linked next prev head l) (ha : a ∈ l) (hb : prev a = some b) : b ∈ l := by
  obtain ⟨l, m, rfl⟩ := List.append_of_mem ha
  rw [h.prev_eq] at hb
  have := List.mem_of_mem_getLast? hb
  simp [this]

section Changes

variable [DecidableEq α] {next prev : α → Option α} {head : Option α} {l : List α} {a : α}

theorem write_of_ne {f : α → Option α} {p x : Option α} (h : p ≠ some a) : write f p x a = f a := by
  cases p with
  | none => rfl
  | some b =>
    have hne : a ≠ b := fun he => h (congrArg some he.symm)
    exact Function.update_of_ne hne _ _

/-- Writes to different objects, in either order. -/
theorem write_update_comm {f : α → Option α} {p x y : Option α} (h : p ≠ some a) :
    write (Function.update f a y) p x = Function.update (write f p x) a y := by
  cases p with
  | none => rfl
  | some b =>
    have hne : a ≠ b := fun he => h (congrArg some he.symm)
    exact Function.update_comm hne _ _ _

theorem Linked.pushFront (h : Linked next prev head l) (hnd : l.Nodup) (ha : a ∉ l) :
    Linked (Function.update next a head)
      (Function.update (write prev head (some a)) a none) (some a) (a :: l) := by
  refine ⟨⟨rfl, ?_⟩, ?_⟩
  · rw [Function.update_self]
    exact h.next.frame ha
  · have hhead := h.next.head
    cases l with
    | nil =>
      rw [show head = none from hhead]
      exact ⟨rfl, by rw [Function.update_self]; rfl⟩
    | cons t l =>
      rw [show head = some t from hhead]
      have hseg := h.prev
      rw [List.reverse_cons] at hseg
      have hnd' : (l.reverse ++ [t]).Nodup := by
        rw [← List.reverse_cons]
        exact List.nodup_reverse.mpr hnd
      have ha' : a ∉ l.reverse ++ [t] := by
        rwa [← List.reverse_cons, List.mem_reverse]
      rw [List.reverse_cons, List.reverse_cons, List.getLast?_cons_cons]
      exact hseg.snoc hnd' ha'

/-- One direction of `Linked.unlink`. -/
theorem Seg.unlink_mid {l m : List α} {p : Option α} (h : Seg next p (l ++ a :: m) none)
    (hnd : (l ++ a :: m).Nodup) :
    Seg (write next l.getLast? (next a)) (if l = [] then next a else p) (l ++ m) none := by
  rcases List.eq_nil_or_concat l with rfl | ⟨l, b, rfl⟩
  · exact h.2
  · rw [List.concat_eq_append, List.append_assoc, List.singleton_append] at h hnd
    rw [List.concat_eq_append, List.getLast?_concat, if_neg (by simp), List.append_assoc,
      List.singleton_append]
    exact h.unlink hnd

theorem Linked.unlink {l m : List α} (h : Linked next prev head (l ++ a :: m))
    (hnd : (l ++ a :: m).Nodup) :
    Linked (write next (prev a) (next a)) (write prev (next a) (prev a))
      (if prev a = none then next a else head) (l ++ m) := by
  have hprev := h.prev_eq
  have hnext := h.next.next_eq
  constructor
  · rw [hprev]
    simp only [List.getLast?_eq_none_iff]
    exact h.next.unlink_mid hnd
  · have hseg := h.prev
    rw [List.reverse_append, List.reverse_cons, List.append_assoc, List.singleton_append] at hseg
    have hnd' : (m.reverse ++ a :: l.reverse).Nodup := by
      have := List.nodup_reverse.mpr hnd
      rwa [List.reverse_append, List.reverse_cons, List.append_assoc, List.singleton_append] at this
    have hmid := hseg.unlink_mid hnd'
    rw [List.getLast?_reverse, ← hnext] at hmid
    rw [List.reverse_append]
    have hlast : (l ++ m).getLast? =
        if m.reverse = [] then prev a else (l ++ a :: m).getLast? := by
      rcases List.eq_nil_or_concat m with rfl | ⟨m, b, rfl⟩
      · rw [hprev, List.reverse_nil, if_pos rfl, List.append_nil]
      · rw [List.concat_eq_append, if_neg (by simp), ← List.append_assoc, List.getLast?_concat,
          ← List.cons_append, ← List.append_assoc, List.getLast?_concat]
    rw [hlast]
    exact hmid

/-- A part of the list goes: what is before it leads to what is after. -/
theorem Seg.cut {l c m : List α} {p : Option α} (h : Seg next p (l ++ (c ++ m)) none)
    (hnd : (l ++ (c ++ m)).Nodup) :
    Seg (write next l.getLast? m.head?) (if l = [] then m.head? else p) (l ++ m) none := by
  obtain ⟨r, hl, hr⟩ := Seg.append.mp h
  obtain ⟨q, -, hm⟩ := Seg.append.mp hr
  rw [hm.head] at hm
  rcases List.eq_nil_or_concat l with rfl | ⟨l, b, rfl⟩
  · exact hm
  · rw [List.concat_eq_append] at hl hnd ⊢
    rw [List.getLast?_concat, if_neg (by simp), List.append_assoc, List.singleton_append]
    obtain ⟨q', hl, rfl, -⟩ := Seg.append.mp hl
    rw [List.append_assoc, List.singleton_append] at hnd
    have hbl : b ∉ l := fun hb => (List.nodup_append.mp hnd).2.2 b hb b (by simp) rfl
    have hbm : b ∉ m := by
      have := (List.nodup_append.mp hnd).2.1
      simp only [List.nodup_cons, List.mem_append, not_or] at this
      exact this.1.2
    refine Seg.append.mpr ⟨_, hl.frame hbl, rfl, ?_⟩
    simp only [write, Function.update_self]
    exact hm.frame hbm

theorem Linked.cut {l c m : List α} (h : Linked next prev head (l ++ (c ++ m)))
    (hnd : (l ++ (c ++ m)).Nodup) :
    Linked (write next l.getLast? m.head?) (write prev m.head? l.getLast?)
      (if l = [] then m.head? else head) (l ++ m) := by
  refine ⟨h.next.cut hnd, ?_⟩
  have hseg := h.prev
  have hrev : (l ++ (c ++ m)).reverse = m.reverse ++ (c.reverse ++ l.reverse) := by
    simp only [List.reverse_append, List.append_assoc]
  rw [hrev] at hseg
  have hcut := hseg.cut (hrev ▸ List.nodup_reverse.mpr hnd)
  rw [List.getLast?_reverse, List.head?_reverse] at hcut
  rw [List.reverse_append]
  have hlast : (l ++ m).getLast? =
      if m.reverse = [] then l.getLast? else (l ++ (c ++ m)).getLast? := by
    rcases List.eq_nil_or_concat m with rfl | ⟨m, b, rfl⟩
    · rw [List.append_nil, List.reverse_nil, if_pos rfl]
    · rw [List.concat_eq_append, if_neg (by simp), ← List.append_assoc, List.getLast?_concat,
        ← List.append_assoc, ← List.append_assoc, List.getLast?_concat]
  rw [hlast]
  exact hcut

end Changes

end Libcat.Intrusive
