import Libcat.Fec.PeelingInvariant

/-!
# Avalanches

`Peel` and `PeelAvalanche` call each other. A step of an avalanche keeps the invariant with one row less
to come, and every call of `Peel` marks a column, so the recursion is as deep as there are unmarked
columns at most. `GreedyPeeling` defers a column as long as there is one, and lets its avalanche run.
-/

namespace Libcat.Fec.Peeling

open ColumnWalk NextPrime Intrusive Mark

section Lists

variable {l : List Nat} {c : Nat}

/-- One column fewer passes. -/
theorem countP_erase {p q : Nat → Bool} (hnd : l.Nodup) (hc : c ∈ l) (hp : p c = true)
    (hq : q c = false) (h : ∀ x ∈ l, x ≠ c → p x = q x) : l.countP p = l.countP q + 1 := by
  induction l with
  | nil => exact absurd hc List.not_mem_nil
  | cons a l ih =>
    obtain ⟨ha, hnd⟩ := List.nodup_cons.mp hnd
    by_cases hac : a = c
    · subst hac
      have hrest : l.countP p = l.countP q := List.countP_congr fun x hx => by
        rw [h x (List.mem_cons_of_mem _ hx) fun he => ha (he ▸ hx)]
      rw [List.countP_cons_of_pos hp, List.countP_cons_of_neg (by rw [hq]; exact Bool.false_ne_true),
        hrest]
    · have hmem : c ∈ l := (List.mem_cons.mp hc).resolve_left fun he => hac he.symm
      have hrest := ih hnd hmem fun x hx => h x (List.mem_cons_of_mem _ hx)
      have hhead := h a List.mem_cons_self hac
      rw [List.countP_cons, List.countP_cons, hrest, hhead]
      omega

/-- If as many pass a stronger test, the tests are the same. -/
theorem countP_eq_imp {p q : Nat → Bool} (himp : ∀ x ∈ l, p x = true → q x = true)
    (hcount : l.countP p = l.countP q) : ∀ x ∈ l, q x = true → p x = true := by
  have hsub : (l.filter p).Sublist (l.filter q) := by
    have : l.filter p = (l.filter q).filter p := by
      rw [List.filter_filter]
      refine List.filter_congr fun x hx => ?_
      cases hp : p x with
      | false => rfl
      | true => rw [himp x hx hp]; rfl
    rw [this]
    exact List.filter_sublist
  rw [List.countP_eq_length_filter, List.countP_eq_length_filter] at hcount
  have heq := hsub.eq_of_length hcount
  intro x hx hq
  have hmem : x ∈ l.filter p := by
    rw [heq]
    exact List.mem_filter.mpr ⟨hx, hq⟩
  exact (List.mem_filter.mp hmem).2

end Lists

section Recursion

variable {m : CheckMatrix} {s s' : State} {n e r c x k : Nat} {P : Nat → Nat → Prop}
  {peeled deferred rows : List Nat}

/-- The unmarked columns, which bound the depth of the recursion. -/
def todo (m : CheckMatrix) (s : State) : Nat :=
  (List.range m.block_count).countP fun x => decide (s.mark x = MARK_TODO)

theorem todo_congr (h : ∀ x, s'.mark x = s.mark x) : todo m s' = todo m s := by
  unfold todo
  exact List.countP_congr fun x _ => by rw [h]

/-- A column that is marked is one less to do. -/
theorem todo_mark (hx : x < m.block_count) (htodo : s.mark x = MARK_TODO)
    (hmark : s'.mark x ≠ MARK_TODO) (h : ∀ y, y ≠ x → s'.mark y = s.mark y) :
    todo m s = todo m s' + 1 :=
  countP_erase List.nodup_range (List.mem_range.mpr hx) (decide_eq_true htodo)
    (decide_eq_false hmark) fun y _ hy => by rw [h y hy]

/-- With enough fuel there is a state, the same for all of it, with `P` still to come. -/
def Settles (m : CheckMatrix) (n k : Nat) (P : Nat → Nat → Prop) (s : State)
    (f : Nat → Option State) : Prop :=
  ∃ s' peeled deferred, (∀ fuel, k ≤ fuel → f fuel = some s') ∧
    Inv m s' n (fun _ => False) P peeled deferred ∧ todo m s' ≤ todo m s

/-- What an avalanche does while fewer than `k` columns are unmarked. -/
def Avalanches (m : CheckMatrix) (n k : Nat) : Prop :=
  ∀ (s : State) (c : Nat) (P : Nat → Nat → Prop) (peeled deferred : List Nat),
    Inv m s n (fun _ => False) (Pend P c (s.peel_col_refs c)) peeled deferred → (∀ r, ¬P c r) →
    todo m s < k → Settles m n k P s fun fuel => peelAvalanche m fuel c s

theorem peel_settles (hav : Avalanches m n k)
    (h : Inv m s n (fun r => r = e) P peeled deferred) (he : e < n) (hx : x ∈ s.columns m e)
    (htodo : s.mark x = MARK_TODO) (honly : ∀ y ∈ s.columns m e, y ≠ x → s.mark y ≠ MARK_TODO)
    (hfin : Finished m s P e) (hk : todo m s ≤ k) :
    Settles m n k P s fun fuel => peel (peelAvalanche m fuel) e x s := by
  have hstart := h.peelStart he hx htodo honly hfin
  obtain ⟨hmark, hrefs, -⟩ := linkPeeled_frame e x s
  have hless : todo m s = todo m (linkPeeled e x s) + 1 :=
    todo_mark (h.columns_lt e he x hx) htodo (by rw [hmark, if_pos rfl]; exact Mark.noConfusion)
      fun y hy => by rw [hmark, if_neg hy]
  rw [← hrefs] at hstart
  obtain ⟨s', peeled', deferred', hrun, hinv, hle⟩ := hav _ x P _ _ hstart
    (fun r hr => (h.pending x r hr).2.2 htodo) (by omega)
  -- the row that solves the column is written over its count of references
  have hoff : AgreeOff n s' (s'.setColumn x { s'.peel_cols x with w2_refs := e }) :=
    agreeOff_setColumn s' n x rfl
  refine ⟨_, peeled', deferred', fun fuel hfuel => ?_,
    hinv.off hoff (fun hn => absurd hn (Nat.lt_irrefl n))
      (fun hn => absurd (hinv.lt n hn) (Nat.lt_irrefl n)) (fun hn => absurd hn (Nat.lt_irrefl n)), ?_⟩
  · have hrun' : peelAvalanche m fuel x (linkPeeled e x s) = some s' := hrun fuel hfuel
    show peel (peelAvalanche m fuel) e x s = _
    unfold peel
    rw [hrun']
    rfl
  · rw [todo_congr hoff.mark]
    omega

/-- A row on the way of an avalanche counts down, and the column is not open for it any more. -/
theorem Inv.visit (h : Inv m s n (fun _ => False) (Pend P c (r :: rows)) peeled deferred)
    (hP : ∀ r, ¬P c r) (hnd : (r :: rows).Nodup) :
    Inv m (countDown r s) n (fun r' => r' = r ∧ r ∉ peeled ++ deferred) (Pend P c rows) peeled
        deferred ∧
      openCount m s (Pend P c (r :: rows)) r =
        openCount m (countDown r s) (Pend P c rows) r + 1 := by
  obtain ⟨hr, hc, hcmark⟩ := h.pending c r (.inr ⟨rfl, List.mem_cons_self⟩)
  have hrows : r ∉ rows := (List.nodup_cons.mp hnd).1
  have hoff : AgreeOff r s (countDown r s) := agreeOff_setRow s r _
  have hself : (countDown r s).peel_rows r =
      { s.peel_rows r with unmarked_count := ((s.peel_rows r).unmarked_count + 0xffff) % 0x10000 } :=
    setRow_self s r _
  have hcols : ∀ r', (countDown r s).columns m r' = s.columns m r' := fun r' => by
    by_cases hr' : r' = r
    · rw [hr']
      exact (columns_eq hself).trans rfl
    · exact hoff.columns hr'
  have hunmarked : ∀ r', (countDown r s).unmarked r' = s.unmarked r' := fun r' => by
    by_cases hr' : r' = r
    · rw [hr']
      exact (unmarked_eq hself).trans rfl
    · exact hoff.unmarked hr'
  have hnext : ∀ r', (countDown r s).next r' = s.next r' := fun r' => by
    by_cases hr' : r' = r
    · rw [hr']
      exact (next_eq hself).trans rfl
    · exact hoff.next hr'
  have hcount : ∀ r', r' ≠ r → (countDown r s).count r' = s.count r' := fun _ hr' =>
    hoff.count hr'
  have hpend : ∀ y r', (y ≠ c ∨ r' ≠ r) → (Pend P c (r :: rows) y r' ↔ Pend P c rows y r') := by
    intro y r' hne
    unfold Pend
    refine or_congr_right (and_congr_right fun hy => ?_)
    rw [List.mem_cons]
    exact or_iff_right (hne.resolve_left fun hyc => hyc hy)
  have hopen : ∀ r', r' ≠ r → openCount m (countDown r s) (Pend P c rows) r' =
      openCount m s (Pend P c (r :: rows)) r' := fun r' hr' =>
    openCount_congr (hcols r') fun y _ => by rw [hoff.mark, hpend y r' (.inr hr')]
  have hless : openCount m s (Pend P c (r :: rows)) r =
      openCount m (countDown r s) (Pend P c rows) r + 1 := by
    unfold openCount
    rw [hcols]
    refine countP_erase (h.nodup_columns r hr) hc (isOpen_iff.mpr (.inr (.inr
      ⟨rfl, List.mem_cons_self⟩))) ?_ fun y _ hy => ?_
    · rw [← Bool.not_eq_true, isOpen_iff, hoff.mark]
      rintro (hT | hPc | ⟨-, hmem⟩)
      · exact hcmark hT
      · exact hP r hPc
      · exact hrows hmem
    · rw [Bool.eq_iff_iff, isOpen_iff, isOpen_iff, hoff.mark, hpend y r (.inl hy)]
  refine ⟨?_, hless⟩
  have hpeeled : ∀ r ∈ peeled, r ∈ peeled ++ deferred := fun r => List.mem_append_left _
  constructor
  case nodup_columns => exact fun r' hr' => hcols r' ▸ h.nodup_columns r' hr'
  case columns_lt => exact fun r' hr' => hcols r' ▸ h.columns_lt r' hr'
  case refs =>
    intro y r'
    rw [hoff.refs, h.refs, hcols]
  case nodup_refs => exact hoff.refs ▸ h.nodup_refs
  case pending =>
    rintro y r' hy
    have hy' : Pend P c (r :: rows) y r' := hy.imp id fun hyc => ⟨hyc.1, List.mem_cons_of_mem _ hyc.2⟩
    rw [hcols, hoff.mark]
    exact h.pending y r' hy'
  case nodup => exact h.nodup
  case lt => exact h.lt
  case working => exact fun r' hr' => hr'.1 ▸ hr'.2
  case peeled_list =>
    rw [hoff.head]
    exact h.peeled_list.congr fun r' _ => hnext r'
  case tail => rw [hoff.tail, h.tail]
  case deferred_list =>
    rw [hoff.defer]
    exact h.deferred_list.congr fun r' _ => hnext r'
  case live =>
    intro r' hr' hE hmem
    have hne : r' ≠ r := fun hre => hE ⟨hre, hre ▸ hmem⟩
    obtain ⟨hcnt, htwo, hknown⟩ := h.live r' hr' id hmem
    refine ⟨by rw [hcount r' hne, hopen r' hne, hcnt], by rwa [hopen r' hne], ?_⟩
    rw [hopen r' hne, hcols, hunmarked]
    intro h2 y hy hyopen
    rw [hoff.mark, ← hpend y r' (.inr hne)] at hyopen
    exact hknown h2 y hy hyopen
  case finished =>
    intro r' hr'
    obtain ⟨hle, hopenle⟩ := h.finished r' hr'
    by_cases hre : r' = r
    · subst hre
      have hcnt : (countDown r' s).count r' = (s.count r' + 0xffff) % 0x10000 :=
        (count_eq hself).trans rfl
      rw [hless] at hopenle
      constructor
      · rw [hcnt]
        omega
      · rw [hcnt]
        omega
    · exact ⟨by rwa [hcount r' hre], by rwa [hcount r' hre, hopen r' hre]⟩
  case solves =>
    intro r' hr'
    rw [hunmarked, hoff.mark, hcols]
    exact h.solves r' hr'
  case solved =>
    intro y hy
    obtain ⟨r', hr', hry⟩ := h.solved y (hoff.mark y ▸ hy)
    exact ⟨r', hr', by rw [hunmarked, hry]⟩
  case solved_once =>
    simp only [hunmarked]
    exact h.solved_once
  case order =>
    intro before r' after heq y hy hyr
    rw [hcols] at hy
    rw [hunmarked] at hyr
    rw [hoff.mark]
    exact (h.order before r' after heq y hy hyr).imp id fun ⟨r'', hr'', hry⟩ =>
      ⟨r'', hr'', by rw [hunmarked, hry]⟩

theorem isTodo_congr (h : ∀ x, s'.mark x = s.mark x) :
    (fun x => decide (s'.mark x = MARK_TODO)) = fun x => decide (s.mark x = MARK_TODO) := by
  funext x
  rw [h]

/-- The search passes over the marked columns. -/
theorem findUnmarked_filter (r : Nat) (columns : List Nat) (k : Nat) (s : State) :
    findUnmarked r columns k s =
      findUnmarked r (columns.filter fun x => decide (s.mark x = MARK_TODO)) k s := by
  induction columns generalizing k s with
  | nil => rfl
  | cons a columns ih =>
    by_cases ha : s.mark a = MARK_TODO
    · have hstep : ∀ row, (fun x => decide (((s.setRow r row).countW2 a).mark x = MARK_TODO)) =
          fun x => decide (s.mark x = MARK_TODO) := fun row => isTodo_congr
        ((agreeOff_setRow s r row).trans (agreeOff_countW2 _ r a)).mark
      rw [List.filter_cons_of_pos (by rwa [decide_eq_true_iff])]
      unfold findUnmarked
      rw [if_pos (show (s.peel_cols a).mark = MARK_TODO from ha),
        if_pos (show (s.peel_cols a).mark = MARK_TODO from ha)]
      match k with
      | 0 =>
        show findUnmarked r columns 1 _ = findUnmarked r _ 1 _
        rw [ih, hstep]
      | 1 =>
        show findUnmarked r columns 2 _ = findUnmarked r _ 2 _
        rw [ih, hstep]
      | k + 2 => rfl
    · rw [List.filter_cons_of_neg (by rwa [decide_eq_true_iff]), ← ih]
      conv_lhs => unfold findUnmarked
      rw [if_neg (show ¬(s.peel_cols a).mark = MARK_TODO from ha)]

/-- Up to two unmarked columns are found, and kept. -/
theorem findUnmarked_spec (r : Nat) (columns : List Nat) (s : State)
    (h : (columns.filter fun x => decide (s.mark x = MARK_TODO)).length ≤ 2) :
    ∃ s', findUnmarked r columns 0 s =
        some ((columns.filter fun x => decide (s.mark x = MARK_TODO)).length, s') ∧
      AgreeOff r s s' ∧ s'.count r = s.count r ∧ (∀ m, s'.columns m r = s.columns m r) ∧
      ((columns.filter fun x => decide (s.mark x = MARK_TODO)).length = 1 →
        columns.filter (fun x => decide (s.mark x = MARK_TODO)) = [(s'.unmarked r).1]) ∧
      ((columns.filter fun x => decide (s.mark x = MARK_TODO)).length = 2 →
        columns.filter (fun x => decide (s.mark x = MARK_TODO)) =
          [(s'.unmarked r).1, (s'.unmarked r).2]) := by
  have hfilter := findUnmarked_filter r columns 0 s
  have htodo : ∀ a ∈ columns.filter fun x => decide (s.mark x = MARK_TODO), s.mark a = MARK_TODO :=
    fun a ha => of_decide_eq_true (List.mem_filter.mp ha).2
  rw [hfilter]
  generalize columns.filter (fun x => decide (s.mark x = MARK_TODO)) = l at h htodo
  match l with
  | [] => exact ⟨s, rfl, ⟨fun _ _ => rfl, fun _ => rfl, rfl, rfl, rfl, rfl⟩, rfl, fun _ => rfl,
      fun h1 => absurd h1 (by simp), fun h2 => absurd h2 (by simp)⟩
  | [a] =>
    have ha : (s.peel_cols a).mark = MARK_TODO := htodo a (by simp)
    set row := s.peel_rows r with hrow
    have hoff := (agreeOff_setRow s r { row with unmarked := (a, row.unmarked.2) }).trans
      (agreeOff_countW2 _ r a)
    set s1 := (s.setRow r { row with unmarked := (a, row.unmarked.2) }).countW2 a with hs1
    have hself : s1.peel_rows r = { row with unmarked := (a, row.unmarked.2) } := by
      rw [hs1, countW2_rows, setRow_self]
    refine ⟨s1, ?_, hoff, ?_, fun m => ?_, fun _ => ?_, fun h2 => absurd h2 (by simp)⟩
    · unfold findUnmarked
      rw [if_pos ha]
      rfl
    · exact (count_eq hself).trans rfl
    · exact (columns_eq hself).trans rfl
    · rw [unmarked_eq hself]
  | [a, b] =>
    have ha : (s.peel_cols a).mark = MARK_TODO := htodo a (by simp)
    have hb : s.mark b = MARK_TODO := htodo b (by simp)
    set row := s.peel_rows r with hrow
    have hoff1 := (agreeOff_setRow s r { row with unmarked := (a, row.unmarked.2) }).trans
      (agreeOff_countW2 _ r a)
    set s1 := (s.setRow r { row with unmarked := (a, row.unmarked.2) }).countW2 a with hs1
    have hself1 : s1.peel_rows r = { row with unmarked := (a, row.unmarked.2) } := by
      rw [hs1, countW2_rows, setRow_self]
    have hb1 : (s1.peel_cols b).mark = MARK_TODO := (hoff1.mark b).trans hb
    have hoff2 := (agreeOff_setRow s1 r { row with unmarked := (a, b) }).trans
      (agreeOff_countW2 _ r b)
    set s2 := (s1.setRow r { row with unmarked := (a, b) }).countW2 b with hs2
    have hself2 : s2.peel_rows r = { row with unmarked := (a, b) } := by
      rw [hs2, countW2_rows, setRow_self]
    refine ⟨s2, ?_, hoff1.trans hoff2, ?_, fun m => ?_, fun h1 => absurd h1 (by simp), fun _ => ?_⟩
    · unfold findUnmarked
      rw [if_pos ha]
      show findUnmarked r [b] 1 s1 = _
      unfold findUnmarked
      rw [if_pos hb1]
      simp only [hself1]
      rfl
    · exact (count_eq hself2).trans rfl
    · exact (columns_eq hself2).trans rfl
    · rw [unmarked_eq hself2]
  | _ :: _ :: _ :: _ => simp at h

theorem Inv.openCount_le (h : Inv m s n (fun _ => False) P peeled deferred) (hr : r < n) :
    openCount m s P r ≤ m.block_count := by
  have hsub : (s.columns m r).Subperm (List.range m.block_count) :=
    List.subperm_of_subset (h.nodup_columns r hr) fun x hx =>
      List.mem_range.mpr (h.columns_lt r hr x hx)
  have := hsub.length_le
  rw [List.length_range] at this
  exact List.countP_le_length.trans this

/-- A row with two open columns, one of which the avalanche comes from, has one left. -/
theorem Live.other (hlive : Live m s P r) (s0 : State) (P0 : Nat → Nat → Prop)
    (hopen : openCount m s P r = 2) (hc : c ∈ s.columns m r) (hcopen : isOpen s P r c = true)
    (hless : openCount m s0 P0 r = 1) (hcols : s0.columns m r = s.columns m r)
    (hunmarked : s0.unmarked r = s.unmarked r)
    (himp : ∀ x, isOpen s0 P0 r x = true → x ≠ c ∧ isOpen s P r x = true) :
    (if (s0.unmarked r).1 = c then (s0.unmarked r).2 else (s0.unmarked r).1) ∈ s0.columns m r ∧
      ∀ x ∈ s0.columns m r, isOpen s0 P0 r x = true →
        x = if (s0.unmarked r).1 = c then (s0.unmarked r).2 else (s0.unmarked r).1 := by
  have hcknown := hlive.known hopen c hc (isOpen_iff.mp hcopen)
  rw [hunmarked, hcols]
  have hunique : ∀ x ∈ s.columns m r, isOpen s0 P0 r x = true →
      x = if (s.unmarked r).1 = c then (s.unmarked r).2 else (s.unmarked r).1 := by
    intro x hx hxopen
    obtain ⟨hxc, hxopen⟩ := himp x hxopen
    have hxknown := hlive.known hopen x hx (isOpen_iff.mp hxopen)
    by_cases hu : (s.unmarked r).1 = c
    · rw [if_pos hu]
      exact hxknown.resolve_left fun hx1 => hxc (hx1.trans hu)
    · rw [if_neg hu]
      have hc2 := hcknown.resolve_left fun hc1 => hu hc1.symm
      exact hxknown.resolve_right fun hx2 => hxc (hx2.trans hc2.symm)
  refine ⟨?_, hunique⟩
  obtain ⟨x, hx, hxopen⟩ := List.countP_pos_iff.mp (show 0 < openCount m s0 P0 r by omega)
  rw [hcols] at hx
  rw [← hunique x hx hxopen]
  exact hx

/-- A row with two open columns that looks for its unmarked ones: two of them are kept, one is solved, and
without one the row is deferred. Nothing is left to count down to. -/
theorem recountRow_settles (hav : Avalanches m n k)
    (h : Inv m s n (fun r' => r' = r) P peeled deferred) (hr : r < n)
    (hopen : openCount m s P r = 2) (hcount : s.count r = 2) (hk : todo m s ≤ k) :
    Settles m n k P s fun fuel => recountRow m (peelAvalanche m fuel) r s := by
  have hlist := h.working r rfl
  set found := (s.columns m r).filter fun x => decide (s.mark x = MARK_TODO) with hfound
  have himp : ∀ x ∈ s.columns m r, decide (s.mark x = MARK_TODO) = true → isOpen s P r x = true :=
    fun x _ hx => isOpen_iff.mpr (.inl (of_decide_eq_true hx))
  have hle : found.length ≤ 2 := by
    rw [hfound, ← List.countP_eq_length_filter, ← hopen]
    exact List.countP_mono_left himp
  obtain ⟨s1, hrun, hoff1, hcount1, hcols1, hone, htwo⟩ := findUnmarked_spec r (s.columns m r) s hle
  rw [← hfound] at hrun hone htwo
  have hinv1 : Inv m s1 n (fun r' => r' = r) P peeled deferred :=
    h.off hoff1 (fun _ => rfl) hlist fun _ => hcols1 m
  have hopen1 : openCount m s1 P r = 2 := (openCount_mark (hcols1 m) hoff1.mark).trans hopen
  have htodo1 : todo m s1 = todo m s := todo_congr hoff1.mark
  have hrun' : findUnmarked r (m.columns (s.peel_rows r).toGenerators) 0 s = some (found.length, s1) :=
    hrun
  by_cases hsmall : found.length ≤ 1
  · set s2 := s1.setRow r { s1.peel_rows r with unmarked_count := 0 } with hs2
    have hoff2 : AgreeOff r s1 s2 := agreeOff_setRow s1 r _
    have hself2 : s2.peel_rows r = { s1.peel_rows r with unmarked_count := 0 } := setRow_self s1 r _
    have hcols2 : s2.columns m r = s1.columns m r := (columns_eq hself2).trans rfl
    have hinv2 := hinv1.off hoff2 (fun _ => rfl) hlist fun _ => hcols2
    have hopen2 : openCount m s2 P r = 2 := (openCount_mark hcols2 hoff2.mark).trans hopen1
    have hcount2 : s2.count r = 0 := (count_eq hself2).trans rfl
    have hfin : Finished m s2 P r := ⟨by rw [hcount2]; decide, by rw [hcount2, hopen2]⟩
    have htodo2 : todo m s2 = todo m s := (todo_congr hoff2.mark).trans htodo1
    by_cases h1 : found.length = 1
    · -- the only unmarked column
      have hfound1 : found = [(s2.peel_rows r).unmarked.1] := by
        rw [hself2]
        exact hone h1
      set x := (s2.peel_rows r).unmarked.1 with hx
      have hcols : s2.columns m r = s.columns m r := hcols2.trans (hcols1 m)
      have hmark : ∀ y, s2.mark y = s.mark y := fun y => (hoff2.mark y).trans (hoff1.mark y)
      have hxmem : x ∈ found := by
        rw [hfound1]
        exact List.mem_singleton.mpr rfl
      obtain ⟨hxcol, hxtodo⟩ := List.mem_filter.mp hxmem
      have honly : ∀ y ∈ s2.columns m r, y ≠ x → s2.mark y ≠ MARK_TODO := by
        intro y hy hne hyT
        rw [hcols] at hy
        rw [hmark] at hyT
        have hymem : y ∈ found := List.mem_filter.mpr ⟨hy, decide_eq_true hyT⟩
        rw [hfound1] at hymem
        exact hne (List.mem_singleton.mp hymem)
      obtain ⟨s', peeled', deferred', hpeel, hinv', hle'⟩ := peel_settles hav hinv2 hr
        (hcols.symm ▸ hxcol) ((hmark x).trans (of_decide_eq_true hxtodo)) honly hfin
        (htodo2.trans_le hk)
      refine ⟨s', peeled', deferred', fun fuel hfuel => ?_, hinv', hle'.trans htodo2.le⟩
      unfold recountRow
      simp only [hrun', Option.bind_eq_bind, Option.bind_some, if_pos hsmall, if_pos h1]
      exact hpeel fuel hfuel
    · refine ⟨s2.deferRow r, peeled, r :: deferred, fun fuel _ => ?_, hinv2.deferRow hr hfin,
        (todo_congr fun _ => rfl).le.trans htodo2.le⟩
      unfold recountRow
      simp only [hrun', Option.bind_eq_bind, Option.bind_some, if_pos hsmall, if_neg h1]
      rfl
  · have h2 : found.length = 2 := by omega
    refine ⟨s1, peeled, deferred, fun fuel _ => ?_, hinv1.settle fun _ => ?_, htodo1.le⟩
    · unfold recountRow
      simp only [hrun', Option.bind_eq_bind, Option.bind_some, if_neg hsmall]
    · refine ⟨by rw [hcount1, hopen1, hcount], hopen1.ge, fun _ x hx hxopen => ?_⟩
      rw [hcols1] at hx
      rw [hoff1.mark] at hxopen
      have htodo := countP_eq_imp himp (by
        rw [List.countP_eq_length_filter, ← hfound, h2]
        exact hopen.symm) x hx (isOpen_iff.mpr hxopen)
      have hxmem : x ∈ found := List.mem_filter.mpr ⟨hx, htodo⟩
      rw [htwo h2] at hxmem
      simpa using hxmem

theorem avalancheRow_settles (hav : Avalanches m n k)
    (h : Inv m s n (fun _ => False) (Pend P c (r :: rows)) peeled deferred) (hP : ∀ r, ¬P c r)
    (hnd : (r :: rows).Nodup) (hk : todo m s ≤ k) :
    Settles m n k (Pend P c rows) s fun fuel => avalancheRow m (peelAvalanche m fuel) c s r := by
  obtain ⟨hinv, hless⟩ := h.visit hP hnd
  obtain ⟨hr, hc, hcmark⟩ := h.pending c r (.inr ⟨rfl, List.mem_cons_self⟩)
  have hoff : AgreeOff r s (countDown r s) := agreeOff_setRow s r _
  have hself : (countDown r s).peel_rows r =
      { s.peel_rows r with unmarked_count := ((s.peel_rows r).unmarked_count + 0xffff) % 0x10000 } :=
    setRow_self s r _
  have hcount : (countDown r s).count r = (s.count r + 0xffff) % 0x10000 :=
    (count_eq hself).trans rfl
  have htodo0 : todo m (countDown r s) = todo m s := todo_congr hoff.mark
  unfold avalancheRow
  dsimp only
  rw [show ((countDown r s).peel_rows r).unmarked_count = (countDown r s).count r from rfl]
  set s0 := countDown r s with hs0
  by_cases hlist : r ∈ peeled ++ deferred
  · -- done with: the count is not one or two
    obtain ⟨hle, hopenle⟩ := h.finished r hlist
    have h1 : s0.count r ≠ 1 := by omega
    have h2 : s0.count r ≠ 2 := by omega
    refine ⟨s0, peeled, deferred, fun fuel _ => ?_, ?_, htodo0.le⟩
    · beta_reduce
      rw [if_neg h1, if_neg h2]
    · exact
        { hinv with
          working := fun _ hf => hf.elim
          live := fun r' hr' _ hmem => hinv.live r' hr' (fun hE => hE.2 hlist) hmem }
  · have hlive := h.live r hr id hlist
    have htwo := hlive.two_le
    have hbound := h.openCount_le hr
    have hmax := m.le_max
    have hcnt : s0.count r = openCount m s0 (Pend P c rows) r := by
      have := hlive.count_eq
      omega
    have hwork : Inv m s0 n (fun r' => r' = r) (Pend P c rows) peeled deferred :=
      { hinv with
        working := fun r' hr' => hr' ▸ hlist
        live := fun r' hr' hne hmem => hinv.live r' hr' (fun hE => hne hE.1) hmem }
    have hcols : s0.columns m r = s.columns m r := (columns_eq hself).trans rfl
    by_cases h1 : s0.count r = 1
    · -- one open column left
      obtain ⟨hmem, hunique⟩ := hlive.other s0 (Pend P c rows) (by omega) hc
        (isOpen_iff.mpr (.inr (.inr ⟨rfl, List.mem_cons_self⟩))) (by omega) hcols (by
          unfold State.unmarked
          rw [hself]) (by
          intro x hx
          rw [isOpen_iff, hoff.mark] at hx
          rw [isOpen_iff]
          rcases hx with hxT | hxP | ⟨rfl, hxr⟩
          · exact ⟨fun hxc => hcmark (hxc ▸ hxT), .inl hxT⟩
          · exact ⟨fun hxc => hP r (hxc ▸ hxP), .inr (.inl hxP)⟩
          · exact absurd hxr (List.nodup_cons.mp hnd).1)
      have hfin : Finished m s0 (Pend P c rows) r := ⟨by omega, by omega⟩
      rw [show (s0.peel_rows r).unmarked = s0.unmarked r from rfl]
      set new_column_i := if (s0.unmarked r).1 = c then (s0.unmarked r).2 else (s0.unmarked r).1
        with hnew
      by_cases htodo : (s0.peel_cols new_column_i).mark = MARK_TODO
      · have honly : ∀ y ∈ s0.columns m r, y ≠ new_column_i → s0.mark y ≠ MARK_TODO :=
          fun y hy hne hyT => hne (hunique y hy (isOpen_iff.mpr (.inl hyT)))
        obtain ⟨s', peeled', deferred', hrun, hinv', hle⟩ :=
          peel_settles hav hwork hr hmem htodo honly hfin (htodo0.trans_le hk)
        refine ⟨s', peeled', deferred', fun fuel hfuel => ?_, hinv', hle.trans htodo0.le⟩
        beta_reduce
        rw [if_pos h1, if_pos htodo]
        exact hrun fuel hfuel
      · refine ⟨s0.deferRow r, peeled, r :: deferred, fun fuel _ => ?_, hwork.deferRow hr hfin, ?_⟩
        · beta_reduce
          rw [if_pos h1, if_neg htodo]
        · exact (todo_congr fun _ => rfl).le.trans htodo0.le
    · by_cases h2 : s0.count r = 2
      · obtain ⟨s', peeled', deferred', hrun, hinv', hle⟩ :=
          recountRow_settles hav hwork hr (hcnt.symm.trans h2) h2 (htodo0.trans_le hk)
        refine ⟨s', peeled', deferred', fun fuel hfuel => ?_, hinv', hle.trans htodo0.le⟩
        beta_reduce
        rw [if_neg h1, if_pos h2]
        exact hrun fuel hfuel
      · refine ⟨s0, peeled, deferred, fun fuel _ => ?_, hwork.settle fun _ => ?_, htodo0.le⟩
        · beta_reduce
          rw [if_neg h1, if_neg h2]
        · exact ⟨hcnt, by omega, fun hopen2 => absurd (hcnt.trans hopen2) h2⟩

/-- The rest of the way of an avalanche. -/
theorem avalancheRows_settle (hav : Avalanches m n k)
    (h : Inv m s n (fun _ => False) (Pend P c rows) peeled deferred) (hP : ∀ r, ¬P c r)
    (hnd : rows.Nodup) (hk : todo m s ≤ k) :
    Settles m n k P s fun fuel => rows.foldlM (avalancheRow m (peelAvalanche m fuel) c) s := by
  induction rows generalizing s peeled deferred with
  | nil =>
    refine ⟨s, peeled, deferred, fun _ _ => rfl, ?_, le_rfl⟩
    have hpend : Pend P c [] = P := by
      funext x r
      exact propext (or_iff_left fun hf => List.not_mem_nil hf.2)
    rwa [hpend] at h
  | cons r rows ih =>
    obtain ⟨s1, peeled1, deferred1, hrow, hinv1, hle1⟩ := avalancheRow_settles hav h hP hnd hk
    obtain ⟨s', peeled', deferred', hrest, hinv', hle'⟩ :=
      ih hinv1 (List.nodup_cons.mp hnd).2 (hle1.trans hk)
    refine ⟨s', peeled', deferred', fun fuel hfuel => ?_, hinv', hle'.trans hle1⟩
    have hrow' : avalancheRow m (peelAvalanche m fuel) c s r = some s1 := hrow fuel hfuel
    beta_reduce
    rw [List.foldlM_cons, hrow']
    exact hrest fuel hfuel

/-- The recursion ends, by the number of unmarked columns. -/
theorem avalanches (m : CheckMatrix) (n k : Nat) : Avalanches m n k := by
  induction k with
  | zero => exact fun _ _ _ _ _ _ _ hk => absurd hk (Nat.not_lt_zero _)
  | succ k ih =>
    intro s c P peeled deferred h hP hk
    obtain ⟨s', peeled', deferred', hrun, hinv, hle⟩ :=
      avalancheRows_settle ih h hP (h.nodup_refs c) (Nat.lt_succ_iff.mp hk)
    refine ⟨s', peeled', deferred', fun fuel hfuel => ?_, hinv, hle⟩
    obtain ⟨f, rfl⟩ := Nat.exists_eq_succ_of_ne_zero (Nat.lt_of_lt_of_le (Nat.succ_pos k) hfuel).ne'
    show peelAvalanche m (f + 1) c s = some s'
    unfold peelAvalanche
    exact hrun f (by omega)

end Recursion

section Greedy

variable {m : CheckMatrix} {s : State} {n c k : Nat} {P : Nat → Nat → Prop}
  {peeled deferred : List Nat}

theorem fold_consider (s : State) (columns : List Nat) (best : Best) :
    (∀ c, (columns.foldl (Best.consider s) best).best_column_i = some c →
        best.best_column_i = some c ∨ c ∈ columns ∧ s.mark c = MARK_TODO) ∧
      ((columns.foldl (Best.consider s) best).best_column_i = none →
        best.best_column_i = none ∧ (best.best_w2_refs = 0 → best.best_row_count = 0 →
          ∀ c ∈ columns, s.mark c ≠ MARK_TODO)) := by
  induction columns generalizing best with
  | nil => exact ⟨fun _ h => .inl h, fun h => ⟨h, fun _ _ _ hc => absurd hc List.not_mem_nil⟩⟩
  | cons a columns ih =>
    obtain ⟨hsome, hnone⟩ := ih (best.consider s a)
    rw [List.foldl_cons]
    by_cases ha : s.mark a = MARK_TODO ∧ (s.peel_cols a).w2_refs ≥ best.best_w2_refs ∧
        ((s.peel_cols a).w2_refs > best.best_w2_refs ∨
          (s.peel_col_refs a).length ≥ best.best_row_count)
    · have hbest : best.consider s a =
          ⟨some a, (s.peel_cols a).w2_refs, (s.peel_col_refs a).length⟩ := if_pos ha
      rw [hbest] at hsome hnone ⊢
      refine ⟨fun c hc => .inr ?_, fun h => absurd (hnone h).1 (Option.some_ne_none a)⟩
      rcases hsome c hc with hac | ⟨hmem, htodo⟩
      · exact Option.some.inj hac ▸ ⟨List.mem_cons_self, ha.1⟩
      · exact ⟨List.mem_cons_of_mem _ hmem, htodo⟩
    · have hbest : best.consider s a = best := if_neg ha
      rw [hbest] at hsome hnone ⊢
      refine ⟨fun c hc => (hsome c hc).imp id fun h => ⟨List.mem_cons_of_mem _ h.1, h.2⟩, fun h => ?_⟩
      obtain ⟨hbestnone, hrest⟩ := hnone h
      refine ⟨hbestnone, fun hw2 hcount c hc => ?_⟩
      rcases List.mem_cons.mp hc with rfl | hc
      · exact fun htodo => ha ⟨htodo, by omega, by omega⟩
      · exact hrest hw2 hcount c hc

theorem bestColumn_some (h : bestColumn m s = some c) : c < m.block_count ∧ s.mark c = MARK_TODO := by
  obtain ⟨hsome, -⟩ := fold_consider s (List.range m.block_count) ⟨none, 0, 0⟩
  rcases hsome c h with hf | ⟨hmem, htodo⟩
  · exact absurd hf.symm (Option.some_ne_none c)
  · exact ⟨List.mem_range.mp hmem, htodo⟩

theorem bestColumn_none (h : bestColumn m s = none) : ∀ c < m.block_count, s.mark c ≠ MARK_TODO :=
  fun c hc => ((fold_consider s (List.range m.block_count) ⟨none, 0, 0⟩).2 h).2 rfl rfl c
    (List.mem_range.mpr hc)

/-- A deferred column: its avalanche is on its way. -/
theorem Inv.deferColumn (h : Inv m s n (fun _ => False) (fun _ _ => False) peeled deferred)
    (htodo : s.mark c = MARK_TODO) :
    Inv m (deferColumn s c) n (fun _ => False)
      (Pend (fun _ _ => False) c ((deferColumn s c).peel_col_refs c)) peeled deferred := by
  have hmark : ∀ y, (Peeling.deferColumn s c).mark y = if y = c then MARK_DEFER else s.mark y :=
    mark_setColumn s c _
  have hmark_ne : ∀ y, y ≠ c → (Peeling.deferColumn s c).mark y = s.mark y := fun y hy => by
    rw [hmark, if_neg hy]
  have hmark_self : (Peeling.deferColumn s c).mark c = MARK_DEFER := by rw [hmark, if_pos rfl]
  set s' := Peeling.deferColumn s c with hs'
  have hopen : ∀ r < n, openCount m s' (Pend (fun _ _ => False) c (s'.peel_col_refs c)) r =
      openCount m s (fun _ _ => False) r := fun r hr => openCount_congr rfl fun y hy => by
    by_cases hyc : y = c
    · subst hyc
      exact iff_of_true (.inr (.inr ⟨rfl, (h.refs y r).mpr ⟨hr, hy⟩⟩)) (.inl htodo)
    · rw [hmark_ne y hyc]
      exact or_congr_right (or_iff_left fun hand => hyc hand.1)
  have hpeel : ∀ y, s.mark y = MARK_PEEL → s'.mark y = MARK_PEEL := fun y hy => by
    rw [hmark_ne y fun hyc => by rw [hyc, htodo] at hy; exact Mark.noConfusion hy, hy]
  constructor
  case nodup_columns => exact h.nodup_columns
  case columns_lt => exact h.columns_lt
  case refs => exact h.refs
  case nodup_refs => exact h.nodup_refs
  case pending =>
    rintro y r (hf | ⟨rfl, hr⟩)
    · exact hf.elim
    · obtain ⟨hr, hy⟩ := (h.refs y r).mp hr
      exact ⟨hr, hy, by rw [hmark_self]; exact Mark.noConfusion⟩
  case nodup => exact h.nodup
  case lt => exact h.lt
  case working => exact h.working
  case peeled_list => exact h.peeled_list
  case tail => exact h.tail
  case deferred_list => exact h.deferred_list
  case live =>
    intro r hr _ hmem
    obtain ⟨hcnt, htwo, hknown⟩ := h.live r hr id hmem
    refine ⟨by rw [hopen r hr]; exact hcnt, by rwa [hopen r hr], ?_⟩
    rw [hopen r hr]
    refine fun h2 y hy hyopen => hknown h2 y hy (.inl ?_)
    by_cases hyc : y = c
    · rw [hyc, htodo]
    · rcases hyopen with hyT | hf | hyc'
      · rwa [hmark_ne y hyc] at hyT
      · exact hf.elim
      · exact absurd hyc'.1 hyc
  case finished =>
    intro r hr
    obtain ⟨hle, hopenle⟩ := h.finished r hr
    exact ⟨hle, by rw [hopen r (h.lt r hr)]; exact hopenle⟩
  case solves => exact fun r hr => ⟨(h.solves r hr).1, hpeel _ (h.solves r hr).2⟩
  case solved =>
    intro y hy
    have hyc : y ≠ c := fun hyc => by
      rw [hyc, hmark_self] at hy
      exact Mark.noConfusion hy
    exact h.solved y (hmark_ne y hyc ▸ hy)
  case solved_once => exact h.solved_once
  case order =>
    intro before r after heq y hy hyr
    refine (h.order before r after heq y hy hyr).imp (fun hdefer => ?_) id
    rw [hmark]
    split
    · rfl
    · exact hdefer

/-- By the number of unmarked columns. -/
theorem greedyLoop_spec (h : Inv m s n (fun _ => False) (fun _ _ => False) peeled deferred)
    (hk : todo m s = k) :
    ∃ s' peeled' deferred', (∀ fuel rounds, k ≤ fuel → k < rounds →
        greedyLoop m fuel rounds s = some s') ∧
      Inv m s' n (fun _ => False) (fun _ _ => False) peeled' deferred' ∧
      ∀ c < m.block_count, s'.mark c ≠ MARK_TODO := by
  induction k using Nat.strong_induction_on generalizing s peeled deferred with
  | _ k ih =>
    cases hbest : bestColumn m s with
    | none =>
      refine ⟨s, peeled, deferred, fun fuel rounds _ hrounds => ?_, h, bestColumn_none hbest⟩
      obtain ⟨j, rfl⟩ := Nat.exists_eq_succ_of_ne_zero (Nat.zero_lt_of_lt hrounds).ne'
      unfold greedyLoop
      rw [hbest]
    | some c =>
      obtain ⟨hc, htodo⟩ := bestColumn_some hbest
      have hless : todo m s = todo m (deferColumn s c) + 1 :=
        todo_mark hc htodo (by
            rw [show (deferColumn s c).mark c = _ from mark_setColumn s c _ c, if_pos rfl]
            exact Mark.noConfusion) fun y hy => by
          rw [show (deferColumn s c).mark y = _ from mark_setColumn s c _ y, if_neg hy]
      obtain ⟨s1, peeled1, deferred1, hrun1, hinv1, hle1⟩ :=
        avalanches m n k _ c (fun _ _ => False) _ _ (h.deferColumn htodo) (fun _ => id) (by omega)
      obtain ⟨s', peeled', deferred', hrun', hinv', hmarks⟩ := ih _ (by omega) hinv1 rfl
      refine ⟨s', peeled', deferred', fun fuel rounds hfuel hrounds => ?_, hinv', hmarks⟩
      obtain ⟨j, rfl⟩ := Nat.exists_eq_succ_of_ne_zero (Nat.zero_lt_of_lt hrounds).ne'
      have hrun : peelAvalanche m fuel c (deferColumn s c) = some s1 := hrun1 fuel hfuel
      unfold greedyLoop
      rw [hbest]
      dsimp only
      rw [hrun]
      exact hrun' fuel j (by omega) (by omega)

theorem todo_le (m : CheckMatrix) (s : State) : todo m s ≤ m.block_count := by
  have := List.countP_le_length (p := fun x => decide (s.mark x = MARK_TODO))
    (l := List.range m.block_count)
  rwa [List.length_range] at this

theorem greedyPeeling_spec (h : Inv m s n (fun _ => False) (fun _ _ => False) peeled deferred) :
    ∃ s' peeled' deferred', (∀ fuel, m.block_count < fuel → greedyPeeling m fuel s = some s') ∧
      Inv m s' n (fun _ => False) (fun _ _ => False) peeled' deferred' ∧
      ∀ c < m.block_count, s'.mark c ≠ MARK_TODO := by
  have hoff : AgreeOff n s { s with defer_head_columns := none, defer_count := 0 } :=
    ⟨fun _ _ => rfl, fun _ => rfl, rfl, rfl, rfl, rfl⟩
  have hinv := h.off hoff (fun hn => absurd hn (Nat.lt_irrefl n))
    (fun hn => absurd (h.lt n hn) (Nat.lt_irrefl n)) fun hn => absurd hn (Nat.lt_irrefl n)
  have hle := todo_le m { s with defer_head_columns := none, defer_count := 0 }
  obtain ⟨s', peeled', deferred', hrun, hinv', hmarks⟩ := greedyLoop_spec hinv rfl
  exact ⟨s', peeled', deferred', fun fuel hfuel => hrun fuel fuel (by omega) (by omega), hinv', hmarks⟩

end Greedy

end Libcat.Fec.Peeling
