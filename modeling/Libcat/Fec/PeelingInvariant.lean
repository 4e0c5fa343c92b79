import Libcat.Fec.Peeling

/-!
# The peeling invariant

Between two steps a row is peeled, deferred or live. The columns of a row that are still open are the
unmarked ones and those whose avalanche has not come to the row: their number is the count of a live
row, however deep the recursion is. Of a peeled or deferred row the count may pass zero, but the open
columns are too few for it to come down to two or one again.
-/

namespace Libcat.Fec.Peeling

open ColumnWalk NextPrime Intrusive Mark

section Views

namespace State

def mark (s : State) (column_i : Nat) : Mark := (s.peel_cols column_i).mark

def next (s : State) (row_i : Nat) : Option Nat := (s.peel_rows row_i).next

def count (s : State) (row_i : Nat) : Nat := (s.peel_rows row_i).unmarked_count

def unmarked (s : State) (row_i : Nat) : Nat × Nat := (s.peel_rows row_i).unmarked

/-- The columns of a row. -/
def columns (m : CheckMatrix) (s : State) (row_i : Nat) : List Nat :=
  m.columns (s.peel_rows row_i).toGenerators

end State

/-- Two states that differ in the row `e` at most, as far as the invariant looks. -/
structure AgreeOff (e : Nat) (s s' : State) : Prop where
  row : ∀ r, r ≠ e → s'.peel_rows r = s.peel_rows r
  mark : ∀ c, s'.mark c = s.mark c
  refs : s'.peel_col_refs = s.peel_col_refs
  head : s'.peel_head_rows = s.peel_head_rows
  tail : s'.peel_tail_rows = s.peel_tail_rows
  defer : s'.defer_head_rows = s.defer_head_rows

variable {s s' s'' : State} {e c : Nat}

theorem AgreeOff.trans (h : AgreeOff e s s') (h' : AgreeOff e s' s'') : AgreeOff e s s'' where
  row r hr := (h'.row r hr).trans (h.row r hr)
  mark c := (h'.mark c).trans (h.mark c)
  refs := h'.refs.trans h.refs
  head := h'.head.trans h.head
  tail := h'.tail.trans h.tail
  defer := h'.defer.trans h.defer

theorem agreeOff_setRow (s : State) (e : Nat) (row : PeelRow) : AgreeOff e s (s.setRow e row) where
  row _ hr := Function.update_of_ne hr _ _
  mark _ := rfl
  refs := rfl
  head := rfl
  tail := rfl
  defer := rfl

@[simp]
theorem setRow_self (s : State) (e : Nat) (row : PeelRow) : (s.setRow e row).peel_rows e = row :=
  Function.update_self ..

/-- What is seen of a row that is known. -/
theorem count_eq {row : PeelRow} (h : s.peel_rows e = row) : s.count e = row.unmarked_count :=
  congrArg PeelRow.unmarked_count h

theorem unmarked_eq {row : PeelRow} (h : s.peel_rows e = row) : s.unmarked e = row.unmarked :=
  congrArg PeelRow.unmarked h

theorem next_eq {row : PeelRow} (h : s.peel_rows e = row) : s.next e = row.next :=
  congrArg PeelRow.next h

theorem columns_eq {m : CheckMatrix} {row : PeelRow} (h : s.peel_rows e = row) :
    s.columns m e = m.columns row.toGenerators :=
  congrArg (fun row : PeelRow => m.columns row.toGenerators) h

theorem mark_setColumn (s : State) (c : Nat) (column : PeelColumn) (x : Nat) :
    (s.setColumn c column).mark x = if x = c then column.mark else s.mark x := by
  show (Function.update s.peel_cols c column x).mark = _
  rw [Function.update_apply]
  split <;> rfl

/-- A change of a column that keeps its mark. -/
theorem agreeOff_setColumn (s : State) (e c : Nat) {column : PeelColumn}
    (h : column.mark = s.mark c) : AgreeOff e s (s.setColumn c column) where
  row _ _ := rfl
  mark x := by
    rw [mark_setColumn]
    split
    · next hx => rw [h, hx]
    · rfl
  refs := rfl
  head := rfl
  tail := rfl
  defer := rfl

theorem agreeOff_countW2 (s : State) (e c : Nat) : AgreeOff e s (s.countW2 c) :=
  agreeOff_setColumn s e c rfl

@[simp]
theorem countW2_rows (s : State) (c : Nat) : (s.countW2 c).peel_rows = s.peel_rows := rfl

end Views

section Invariant

/-- A column is open for a row if it is unmarked, or marked with an avalanche still to come (`P`). -/
noncomputable def isOpen (s : State) (P : Nat → Nat → Prop) (r x : Nat) : Bool :=
  @decide (s.mark x = MARK_TODO ∨ P x r) (Classical.propDecidable _)

theorem isOpen_iff {s : State} {P : Nat → Nat → Prop} {r x : Nat} :
    isOpen s P r x = true ↔ s.mark x = MARK_TODO ∨ P x r :=
  @decide_eq_true_iff _ (Classical.propDecidable _)

noncomputable def openCount (m : CheckMatrix) (s : State) (P : Nat → Nat → Prop) (r : Nat) : Nat :=
  (s.columns m r).countP (isOpen s P r)

/-- A row that is still waiting: its count is right, and of two open columns both are known. -/
structure Live (m : CheckMatrix) (s : State) (P : Nat → Nat → Prop) (r : Nat) : Prop where
  count_eq : s.count r = openCount m s P r
  two_le : 2 ≤ openCount m s P r
  known : openCount m s P r = 2 → ∀ x ∈ s.columns m r, s.mark x = MARK_TODO ∨ P x r →
    x = (s.unmarked r).1 ∨ x = (s.unmarked r).2

/-- A row that is done with: counted down as often as there are open columns, its count does not come to
two or one. -/
structure Finished (m : CheckMatrix) (s : State) (P : Nat → Nat → Prop) (r : Nat) : Prop where
  count_le : (s.count r + 2) % 0x10000 ≤ 3
  open_le : openCount m s P r ≤ (s.count r + 2) % 0x10000

/-- The rows below `n` are stored, those of `peeled` and `deferred` are done with, and those of `E` are
being worked on. -/
structure Inv (m : CheckMatrix) (s : State) (n : Nat) (E : Nat → Prop) (P : Nat → Nat → Prop)
    (peeled deferred : List Nat) : Prop where
  nodup_columns : ∀ r < n, (s.columns m r).Nodup
  columns_lt : ∀ r < n, ∀ x ∈ s.columns m r, x < m.block_count
  refs : ∀ x r, r ∈ s.peel_col_refs x ↔ r < n ∧ x ∈ s.columns m r
  nodup_refs : ∀ x, (s.peel_col_refs x).Nodup
  pending : ∀ x r, P x r → r < n ∧ x ∈ s.columns m r ∧ s.mark x ≠ MARK_TODO
  nodup : (peeled ++ deferred).Nodup
  lt : ∀ r ∈ peeled ++ deferred, r < n
  working : ∀ r, E r → r ∉ peeled ++ deferred
  peeled_list : Seg s.next s.peel_head_rows peeled none
  tail : s.peel_tail_rows = peeled.getLast?
  deferred_list : Seg s.next s.defer_head_rows deferred none
  live : ∀ r < n, ¬E r → r ∉ peeled ++ deferred → Live m s P r
  finished : ∀ r ∈ peeled ++ deferred, Finished m s P r
  solves : ∀ r ∈ peeled, (s.unmarked r).1 ∈ s.columns m r ∧ s.mark (s.unmarked r).1 = MARK_PEEL
  solved : ∀ x, s.mark x = MARK_PEEL → ∃ r ∈ peeled, (s.unmarked r).1 = x
  solved_once : (peeled.map fun r => (s.unmarked r).1).Nodup
  order : ∀ before r after, peeled = before ++ r :: after → ∀ x ∈ s.columns m r,
    x ≠ (s.unmarked r).1 → s.mark x = MARK_DEFER ∨ ∃ r' ∈ before, (s.unmarked r').1 = x

variable {m : CheckMatrix} {s s' : State} {n e r x : Nat} {E : Nat → Prop} {P P' : Nat → Nat → Prop}
  {peeled deferred : List Nat}

theorem openCount_congr (hcol : s'.columns m r = s.columns m r)
    (h : ∀ x ∈ s.columns m r, (s'.mark x = MARK_TODO ∨ P' x r) ↔ (s.mark x = MARK_TODO ∨ P x r)) :
    openCount m s' P' r = openCount m s P r := by
  unfold openCount
  rw [hcol]
  exact List.countP_congr fun x hx => by
    rw [isOpen_iff, isOpen_iff]
    exact h x hx

theorem openCount_mark (hcol : s'.columns m r = s.columns m r) (hmark : ∀ x, s'.mark x = s.mark x) :
    openCount m s' P r = openCount m s P r :=
  openCount_congr hcol fun x _ => by rw [hmark]

theorem AgreeOff.columns (h : AgreeOff e s s') (hr : r ≠ e) : s'.columns m r = s.columns m r :=
  columns_eq (h.row r hr)

theorem AgreeOff.count (h : AgreeOff e s s') (hr : r ≠ e) : s'.count r = s.count r :=
  count_eq (h.row r hr)

theorem AgreeOff.unmarked (h : AgreeOff e s s') (hr : r ≠ e) : s'.unmarked r = s.unmarked r :=
  unmarked_eq (h.row r hr)

theorem AgreeOff.next (h : AgreeOff e s s') (hr : r ≠ e) : s'.next r = s.next r :=
  next_eq (h.row r hr)

/-- A row that is being worked on can change. -/
theorem Inv.off (h : Inv m s n E P peeled deferred) (hs : AgreeOff e s s') (he : e < n → E e)
    (hlist : e ∉ peeled ++ deferred)
    (hcol : e < n → s'.columns m e = s.columns m e) : Inv m s' n E P peeled deferred := by
  have hcols : ∀ r < n, s'.columns m r = s.columns m r := fun r hr => by
    by_cases hre : r = e
    · subst hre
      exact hcol hr
    · exact hs.columns hre
  have hne : ∀ r ∈ peeled ++ deferred, r ≠ e := fun r hr hre => hlist (hre ▸ hr)
  have hlistcols : ∀ r ∈ peeled ++ deferred, s'.columns m r = s.columns m r := fun r hr =>
    hs.columns (hne r hr)
  have hopen : ∀ r < n, openCount m s' P r = openCount m s P r := fun r hr =>
    openCount_mark (hcols r hr) hs.mark
  have hpeeled : ∀ r ∈ peeled, r ∈ peeled ++ deferred := fun r => List.mem_append_left _
  constructor
  case nodup_columns => exact fun r hr => hcols r hr ▸ h.nodup_columns r hr
  case columns_lt => exact fun r hr => hcols r hr ▸ h.columns_lt r hr
  case refs =>
    intro x r
    rw [hs.refs, h.refs]
    exact and_congr_right fun hr => by rw [hcols r hr]
  case nodup_refs => exact hs.refs ▸ h.nodup_refs
  case pending =>
    intro x r hx
    obtain ⟨hr, hmem, hmark⟩ := h.pending x r hx
    exact ⟨hr, hcols r hr ▸ hmem, hs.mark x ▸ hmark⟩
  case nodup => exact h.nodup
  case lt => exact h.lt
  case working => exact h.working
  case peeled_list =>
    rw [hs.head]
    exact h.peeled_list.congr fun r hr => hs.next (hne r (hpeeled r hr))
  case tail => rw [hs.tail, h.tail]
  case deferred_list =>
    rw [hs.defer]
    exact h.deferred_list.congr fun r hr => hs.next (hne r (List.mem_append_right _ hr))
  case live =>
    intro r hr hE hmem
    have hre : r ≠ e := fun hre => hE (hre ▸ he (hre ▸ hr))
    obtain ⟨hcnt, htwo, hknown⟩ := h.live r hr hE hmem
    refine ⟨by rw [hs.count hre, hopen r hr, hcnt], by rwa [hopen r hr], ?_⟩
    rw [hopen r hr, hcols r hr, hs.unmarked hre]
    intro h2 x hx hopenx
    exact hknown h2 x hx (by rwa [hs.mark] at hopenx)
  case finished =>
    intro r hr
    obtain ⟨hle, hopenle⟩ := h.finished r hr
    exact ⟨by rwa [hs.count (hne r hr)], by rwa [hs.count (hne r hr), hopen r (h.lt r hr)]⟩
  case solves =>
    intro r hr
    rw [hs.unmarked (hne r (hpeeled r hr)), hs.mark, hlistcols r (hpeeled r hr)]
    exact h.solves r hr
  case solved =>
    intro x hx
    obtain ⟨r, hr, hrx⟩ := h.solved x (hs.mark x ▸ hx)
    exact ⟨r, hr, by rw [hs.unmarked (hne r (hpeeled r hr)), hrx]⟩
  case solved_once =>
    have hmap : (peeled.map fun r => (s'.unmarked r).1) = peeled.map fun r => (s.unmarked r).1 :=
      List.map_congr_left fun r hr => by rw [hs.unmarked (hne r (hpeeled r hr))]
    rw [hmap]
    exact h.solved_once
  case order =>
    intro before r after heq x hx hxr
    have hr : r ∈ peeled := heq ▸ List.mem_append_right _ List.mem_cons_self
    rw [hlistcols r (hpeeled r hr)] at hx
    rw [hs.unmarked (hne r (hpeeled r hr))] at hxr
    rw [hs.mark]
    refine (h.order before r after heq x hx hxr).imp id fun ⟨r', hr', hrx⟩ => ⟨r', hr', ?_⟩
    have hr'p : r' ∈ peeled := heq ▸ List.mem_append_left _ hr'
    rw [hs.unmarked (hne r' (hpeeled r' hr'p)), hrx]

/-- The row that was worked on is live again, or done with in the meantime. -/
theorem Inv.settle (h : Inv m s n (fun r => r = e) P peeled deferred)
    (hlive : e < n → Live m s P e) : Inv m s n (fun _ => False) P peeled deferred :=
  { h with
    working := fun _ hr => hr.elim
    live := fun r hr _ hmem => by
      by_cases hre : r = e
      · subst hre
        exact hlive hr
      · exact h.live r hr hre hmem }

/-- A row at the head of the defer list. -/
theorem Inv.deferRow (h : Inv m s n (fun r => r = e) P peeled deferred) (he : e < n)
    (hfin : Finished m s P e) :
    Inv m (s.deferRow e) n (fun _ => False) P peeled (e :: deferred) := by
  have hlist := h.working e rfl
  set s1 := s.setRow e { s.peel_rows e with next := s.defer_head_rows } with hs1
  have hoff : AgreeOff e s s1 := agreeOff_setRow s e _
  have hself : s1.peel_rows e = { s.peel_rows e with next := s.defer_head_rows } := setRow_self s e _
  have h1 : Inv m s1 n (fun r => r = e) P peeled deferred :=
    h.off hoff (fun _ => rfl) hlist fun _ => (columns_eq hself).trans rfl
  have hnext : s1.next e = s1.defer_head_rows := (next_eq hself).trans rfl
  have hfin1 : Finished m s1 P e := by
    have hcount : s1.count e = s.count e := (count_eq hself).trans rfl
    have hopen : openCount m s1 P e = openCount m s P e :=
      openCount_mark ((columns_eq hself).trans rfl) hoff.mark
    exact ⟨hcount ▸ hfin.count_le, by rw [hopen, hcount]; exact hfin.open_le⟩
  have hmem : ∀ r, r ∈ peeled ++ e :: deferred ↔ r = e ∨ r ∈ peeled ++ deferred := fun r => by
    simp only [List.mem_append, List.mem_cons]
    tauto
  show Inv m { s1 with defer_head_rows := some e } n _ P peeled (e :: deferred)
  exact
    { nodup_columns := h1.nodup_columns
      columns_lt := h1.columns_lt
      refs := h1.refs
      nodup_refs := h1.nodup_refs
      pending := h1.pending
      nodup := List.nodup_middle.mpr (List.nodup_cons.mpr ⟨hlist, h1.nodup⟩)
      lt := fun r hr => ((hmem r).mp hr).elim (fun hre => hre ▸ he) (h1.lt r)
      working := fun _ hr => hr.elim
      peeled_list := h1.peeled_list
      tail := h1.tail
      deferred_list := ⟨rfl, hnext ▸ h1.deferred_list⟩
      live := fun r hr _ hr' => by
        rw [hmem, not_or] at hr'
        obtain ⟨hcount, htwo, hknown⟩ := h1.live r hr hr'.1 hr'.2
        exact ⟨hcount, htwo, hknown⟩
      finished := fun r hr => by
        have hr' : Finished m s1 P r :=
          ((hmem r).mp hr).elim (fun hre => hre ▸ hfin1) (h1.finished r)
        exact ⟨hr'.count_le, hr'.open_le⟩
      solves := h1.solves
      solved := h1.solved
      solved_once := h1.solved_once
      order := h1.order }

/-- The columns of an avalanche that is on its way: those of `P`, and `c` for the rows of `rows`. -/
def Pend (P : Nat → Nat → Prop) (c : Nat) (rows : List Nat) (x r : Nat) : Prop :=
  P x r ∨ x = c ∧ r ∈ rows

theorem linkPeeled_rows (e x : Nat) (s : State) (r : Nat) :
    (linkPeeled e x s).peel_rows r =
      if r = e then
        { s.peel_rows e with next := none, unmarked := (x, (s.peel_rows e).unmarked.2 / 0x100 * 0x100) }
      else if s.peel_tail_rows = some r then { s.peel_rows r with next := some e }
      else s.peel_rows r := by
  unfold linkPeeled
  cases htail : s.peel_tail_rows with
  | none =>
    by_cases hr : r = e
    · subst hr
      simp [State.setRow, State.setColumn, htail, PeelRow.clearCopied, PeelRow.setPeelColumn]
    · simp [State.setRow, State.setColumn, htail, hr]
  | some t =>
    by_cases hr : r = e
    · subst hr
      by_cases ht : r = t
      · subst ht
        simp [State.setRow, State.setColumn, htail, PeelRow.clearCopied, PeelRow.setPeelColumn]
      · simp [State.setRow, State.setColumn, htail, PeelRow.clearCopied, PeelRow.setPeelColumn, ht]
    · by_cases ht : t = r
      · subst ht
        simp [State.setRow, State.setColumn, htail, hr]
      · simp [State.setRow, State.setColumn, htail, hr, ht, Ne.symm ht]

theorem linkPeeled_frame (e x : Nat) (s : State) :
    (∀ y, (linkPeeled e x s).mark y = if y = x then MARK_PEEL else s.mark y) ∧
      (linkPeeled e x s).peel_col_refs = s.peel_col_refs ∧
      (linkPeeled e x s).peel_tail_rows = some e ∧
      (linkPeeled e x s).defer_head_rows = s.defer_head_rows ∧
      (linkPeeled e x s).peel_head_rows =
        if s.peel_tail_rows = none then some e else s.peel_head_rows := by
  unfold linkPeeled
  cases htail : s.peel_tail_rows with
  | none =>
    refine ⟨fun y => ?_, ?_, ?_, ?_, ?_⟩ <;>
      simp [State.setRow, State.setColumn, State.mark, htail, Function.update_apply]
    split <;> rfl
  | some t =>
    refine ⟨fun y => ?_, ?_, ?_, ?_, ?_⟩ <;>
      simp [State.setRow, State.setColumn, State.mark, htail, Function.update_apply]
    split <;> rfl

/-- The rows of `linkPeeled`, as far as the invariant looks. -/
theorem linkPeeled_views (e x : Nat) (s : State) :
    (∀ m r, (linkPeeled e x s).columns m r = s.columns m r) ∧
      (∀ r, (linkPeeled e x s).count r = s.count r) ∧
      (∀ r, r ≠ e → (linkPeeled e x s).unmarked r = s.unmarked r) ∧
      ((linkPeeled e x s).unmarked e).1 = x ∧
      ∀ r, (linkPeeled e x s).next r =
        if r = e then none else if s.peel_tail_rows = some r then some e else s.next r := by
  refine ⟨fun m r => ?_, fun r => ?_, fun r hr => ?_, ?_, fun r => ?_⟩
  · unfold State.columns
    rw [linkPeeled_rows]
    split
    · next hre => rw [hre]
    · split <;> rfl
  · unfold State.count
    rw [linkPeeled_rows]
    split
    · next hre => rw [hre]
    · split <;> rfl
  · unfold State.unmarked
    rw [linkPeeled_rows, if_neg hr]
    split <;> rfl
  · unfold State.unmarked
    rw [linkPeeled_rows, if_pos rfl]
  · unfold State.next
    rw [linkPeeled_rows]
    split
    · rfl
    · split <;> rfl

/-- The links after `linkPeeled`: one more row at the end of the peeled list. -/
theorem Inv.linked (h : Inv m s n (fun r => r = e) P peeled deferred) :
    Seg (linkPeeled e x s).next (linkPeeled e x s).peel_head_rows (peeled ++ [e]) none ∧
      Seg (linkPeeled e x s).next (linkPeeled e x s).defer_head_rows deferred none := by
  obtain ⟨-, -, -, -, hnext⟩ := linkPeeled_views e x s
  obtain ⟨-, -, -, hdefer, hhead⟩ := linkPeeled_frame e x s
  have hlist := h.working e rfl
  have hpeeled : e ∉ peeled := fun hr => hlist (List.mem_append_left _ hr)
  have htail := h.tail
  constructor
  · rcases List.eq_nil_or_concat' peeled with rfl | ⟨before, t, rfl⟩
    · rw [hhead, htail, List.getLast?_nil, if_pos rfl]
      refine ⟨rfl, ?_⟩
      rw [hnext, if_pos rfl]
      rfl
    · rw [List.getLast?_concat] at htail
      have hfun : (linkPeeled e x s).next =
          Function.update (Function.update s.next t (some e)) e none := by
        funext r
        rw [hnext, htail, Function.update_apply, Function.update_apply]
        simp only [Option.some.injEq, eq_comm]
      rw [hhead, htail, if_neg (Option.some_ne_none t), hfun]
      exact h.peeled_list.snoc (List.nodup_append.mp h.nodup).1 hpeeled
  · rw [hdefer]
    refine h.deferred_list.congr fun r hr => ?_
    have hre : r ≠ e := fun hre => hlist (List.mem_append_right _ (hre ▸ hr))
    have hrt : s.peel_tail_rows ≠ some r := by
      rw [htail]
      intro hlast
      exact (List.nodup_append.mp h.nodup).2.2 r (List.mem_of_getLast? hlast) r hr rfl
    rw [hnext, if_neg hre, if_neg hrt]

/-- A row that solves its only unmarked column: the avalanche of the column is on its way to all the
rows that refer to it. -/
theorem Inv.peelStart (h : Inv m s n (fun r => r = e) P peeled deferred) (he : e < n)
    (hx : x ∈ s.columns m e) (htodo : s.mark x = MARK_TODO)
    (honly : ∀ y ∈ s.columns m e, y ≠ x → s.mark y ≠ MARK_TODO) (hfin : Finished m s P e) :
    Inv m (linkPeeled e x s) n (fun _ => False) (Pend P x (s.peel_col_refs x)) (peeled ++ [e])
      deferred := by
  obtain ⟨hcols, hcount, hunmarked, hsolves, -⟩ := linkPeeled_views e x s
  obtain ⟨hmark, hrefs, htail, -, -⟩ := linkPeeled_frame e x s
  obtain ⟨hpeeledseg, hdeferredseg⟩ := h.linked (x := x)
  have hlist := h.working e rfl
  have hpeeled : ∀ r ∈ peeled, r ≠ e := fun r hr hre => hlist (List.mem_append_left _ (hre ▸ hr))
  have hmem : ∀ r, r ∈ peeled ++ [e] ++ deferred ↔ r = e ∨ r ∈ peeled ++ deferred := fun r => by
    simp only [List.mem_append, List.mem_singleton]
    tauto
  have hmark_ne : ∀ y, y ≠ x → (linkPeeled e x s).mark y = s.mark y := fun y hy => by
    rw [hmark, if_neg hy]
  have hmark_self : (linkPeeled e x s).mark x = MARK_PEEL := by rw [hmark, if_pos rfl]
  -- the column is not unmarked any more, but open for the same rows
  have hopen : ∀ r < n, openCount m (linkPeeled e x s) (Pend P x (s.peel_col_refs x)) r =
      openCount m s P r := fun r hr => openCount_congr (hcols m r) fun y hy => by
    by_cases hyx : y = x
    · subst hyx
      exact iff_of_true (.inr (.inr ⟨rfl, (h.refs y r).mpr ⟨hr, hy⟩⟩)) (.inl htodo)
    · rw [hmark_ne y hyx]
      exact or_congr_right (or_iff_left fun hand => hyx hand.1)
  have hfresh : x ∉ peeled.map fun r => (s.unmarked r).1 := fun hx' => by
    obtain ⟨r, hr, hrx⟩ := List.mem_map.mp hx'
    have := (h.solves r hr).2
    rw [hrx, htodo] at this
    exact Mark.noConfusion this
  have hmap : (peeled.map fun r => ((linkPeeled e x s).unmarked r).1) =
      peeled.map fun r => (s.unmarked r).1 :=
    List.map_congr_left fun r hr => by rw [hunmarked r (hpeeled r hr)]
  constructor
  case nodup_columns => exact fun r hr => hcols m r ▸ h.nodup_columns r hr
  case columns_lt => exact fun r hr => hcols m r ▸ h.columns_lt r hr
  case refs =>
    intro y r
    rw [hrefs, h.refs, hcols]
  case nodup_refs => exact hrefs ▸ h.nodup_refs
  case pending =>
    rintro y r (hP | ⟨rfl, hr⟩)
    · obtain ⟨hr, hy, hymark⟩ := h.pending y r hP
      have hyx : y ≠ x := fun hyx => hymark (hyx ▸ htodo)
      exact ⟨hr, (hcols m r).symm ▸ hy, by rwa [hmark_ne y hyx]⟩
    · obtain ⟨hr, hy⟩ := (h.refs y r).mp hr
      exact ⟨hr, (hcols m r).symm ▸ hy, by rw [hmark_self]; exact Mark.noConfusion⟩
  case nodup =>
    rw [List.append_assoc, List.singleton_append]
    exact List.nodup_middle.mpr (List.nodup_cons.mpr ⟨hlist, h.nodup⟩)
  case lt => exact fun r hr => ((hmem r).mp hr).elim (fun hre => hre ▸ he) (h.lt r)
  case working => exact fun _ hr => hr.elim
  case peeled_list => exact hpeeledseg
  case tail => rw [htail, List.getLast?_concat]
  case deferred_list => exact hdeferredseg
  case live =>
    intro r hr _ hr'
    rw [hmem, not_or] at hr'
    obtain ⟨hcnt, htwo, hknown⟩ := h.live r hr hr'.1 hr'.2
    refine ⟨by rw [hcount, hopen r hr, hcnt], by rwa [hopen r hr], ?_⟩
    rw [hopen r hr, hcols, hunmarked r hr'.1]
    refine fun h2 y hy hopeny => hknown h2 y hy ?_
    rcases hopeny with hyT | hyP | ⟨rfl, -⟩
    · have hyx : y ≠ x := fun hyx => by
        rw [hyx, hmark_self] at hyT
        exact Mark.noConfusion hyT
      exact .inl (hmark_ne y hyx ▸ hyT)
    · exact .inr hyP
    · exact .inl htodo
  case finished =>
    intro r hr
    obtain ⟨hle, hopenle⟩ := ((hmem r).mp hr).elim (fun hre => hre ▸ hfin) (h.finished r)
    have hrn : r < n := ((hmem r).mp hr).elim (fun hre => hre ▸ he) (h.lt r)
    exact ⟨by rwa [hcount], by rwa [hcount, hopen r hrn]⟩
  case solves =>
    intro r hr
    rw [hcols]
    rcases List.mem_append.mp hr with hr | hr
    · obtain ⟨hcol, hpeel⟩ := h.solves r hr
      rw [hunmarked r (hpeeled r hr), hmark]
      refine ⟨hcol, ?_⟩
      split
      · rfl
      · exact hpeel
    · rw [List.mem_singleton.mp hr, hsolves]
      exact ⟨hx, hmark_self⟩
  case solved =>
    intro y hy
    by_cases hyx : y = x
    · exact ⟨e, List.mem_append_right _ (List.mem_singleton.mpr rfl), by rw [hsolves, hyx]⟩
    · obtain ⟨r, hr, hry⟩ := h.solved y (hmark_ne y hyx ▸ hy)
      exact ⟨r, List.mem_append_left _ hr, by rw [hunmarked r (hpeeled r hr), hry]⟩
  case solved_once =>
    rw [List.map_append, hmap, List.map_singleton, hsolves]
    refine List.nodup_append.mpr ⟨h.solved_once, List.nodup_singleton _, fun a ha b hb hab => ?_⟩
    rw [List.mem_singleton] at hb
    exact hfresh (hb ▸ hab ▸ ha)
  case order =>
    intro before r after heq y hy hyr
    rw [hcols] at hy
    rcases List.eq_nil_or_concat' after with rfl | ⟨after', z, rfl⟩
    · -- the row itself: its other columns are marked
      obtain ⟨rfl, hre⟩ := List.append_inj' heq rfl
      obtain rfl := List.singleton_inj.mp hre
      rw [hsolves] at hyr
      rw [hmark_ne y hyr]
      cases hy' : s.mark y with
      | MARK_TODO => exact absurd hy' (honly y hy hyr)
      | MARK_PEEL =>
        obtain ⟨r', hr', hry⟩ := h.solved y hy'
        exact .inr ⟨r', hr', by rw [hunmarked r' (hpeeled r' hr'), hry]⟩
      | MARK_DEFER => exact .inl rfl
    · rw [← List.cons_append, ← List.append_assoc] at heq
      obtain ⟨hold, -⟩ := List.append_inj' heq rfl
      have hr : r ∈ peeled := hold ▸ List.mem_append_right _ List.mem_cons_self
      rw [hunmarked r (hpeeled r hr)] at hyr
      rcases h.order before r after' hold y hy hyr with hdefer | ⟨r', hr', hry⟩
      · have hyx : y ≠ x := fun hyx => by
          rw [hyx, htodo] at hdefer
          exact Mark.noConfusion hdefer
        exact .inl (by rw [hmark_ne y hyx, hdefer])
      · have hr'p : r' ∈ peeled := hold ▸ List.mem_append_left _ hr'
        exact .inr ⟨r', hr', by rw [hunmarked r' (hpeeled r' hr'p), hry]⟩

end Invariant

end Libcat.Fec.Peeling
