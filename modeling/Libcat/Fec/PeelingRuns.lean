import Libcat.Fec.Avalanche

/-!
# Rows into the decoder

A new row is referenced from its columns one by one. Where a column has no room left the walk is made
once more to take the references back, and the decoder goes on as if the row had never come. Otherwise
the row is one more that the invariant holds for, up to the block count.
-/

namespace Libcat.Fec.Peeling

open ColumnWalk NextPrime Intrusive Mark

section References

variable {m : CheckMatrix} {row_i : Nat} {peel_cols : Nat → PeelColumn} {columns : List Nat}
  {refs refs' : Nat → List Nat} {u u' : Unmarked} {c : Nat}

/-- A row referenced from its columns. -/
def referenced (row_i : Nat) (columns : List Nat) (refs : Nat → List Nat) : Nat → List Nat := fun c =>
  if c ∈ columns then refs c ++ [row_i] else refs c

theorem referenced_cons (hc : c ∉ columns) :
    referenced row_i columns (Function.update refs c (refs c ++ [row_i])) =
      referenced row_i (c :: columns) refs := by
  funext x
  unfold referenced
  by_cases hx : x = c
  · rw [hx, if_neg hc, if_pos List.mem_cons_self, Function.update_self]
  · rw [Function.update_of_ne hx]
    simp only [List.mem_cons, hx, false_or]

theorem reference_done (hnd : columns.Nodup)
    (h : reference peel_cols row_i columns refs u = .done refs' u') :
    refs' = referenced row_i columns refs ∧
      u' = (columns.filter fun x => decide ((peel_cols x).mark = MARK_TODO)).foldl Unmarked.add u := by
  induction columns generalizing refs u with
  | nil =>
    cases h
    exact ⟨by funext x; simp [referenced], rfl⟩
  | cons a columns ih =>
    obtain ⟨ha, hnd⟩ := List.nodup_cons.mp hnd
    unfold reference at h
    by_cases hfull : (refs a).length ≥ CAT_REF_LIST_MAX
    · rw [if_pos hfull] at h
      cases h
    · rw [if_neg hfull] at h
      obtain ⟨hrefs, hu⟩ := ih hnd h
      refine ⟨hrefs.trans (referenced_cons ha), ?_⟩
      by_cases htodo : (peel_cols a).mark = MARK_TODO
      · rw [if_pos htodo] at hu
        rw [List.filter_cons_of_pos (by rwa [decide_eq_true_iff]), List.foldl_cons, hu]
      · rw [if_neg htodo] at hu
        rw [List.filter_cons_of_neg (by rwa [decide_eq_true_iff]), hu]

theorem reference_full (hnd : columns.Nodup)
    (h : reference peel_cols row_i columns refs u = .full c refs') :
    ∃ before after, columns = before ++ c :: after ∧ CAT_REF_LIST_MAX ≤ (refs c).length ∧
      refs' = referenced row_i before refs := by
  induction columns generalizing refs u with
  | nil => cases h
  | cons a columns ih =>
    obtain ⟨ha, hnd⟩ := List.nodup_cons.mp hnd
    unfold reference at h
    by_cases hfull : (refs a).length ≥ CAT_REF_LIST_MAX
    · rw [if_pos hfull] at h
      cases h
      exact ⟨[], columns, rfl, hfull, by funext x; simp [referenced]⟩
    · rw [if_neg hfull] at h
      obtain ⟨before, after, rfl, hlen, hrefs⟩ := ih hnd h
      have hbefore : a ∉ before := fun hmem => ha (List.mem_append_left _ hmem)
      have hac : c ≠ a := fun hca => ha (hca ▸ List.mem_append_right _ List.mem_cons_self)
      rw [Function.update_of_ne hac] at hlen
      exact ⟨a :: before, after, rfl, hlen, hrefs.trans (referenced_cons hbefore)⟩

/-- The walk comes around to the failing column, and takes back what was referenced before it. -/
theorem fixPeelFailure_spec {peel_a weight x fuel : Nat} {before after : List Nat}
    (hwalk : walk m.block_count m.block_next_prime peel_a weight x = before ++ c :: after)
    (hnd : (before ++ c :: after).Nodup) (hfuel : before.length < fuel) :
    fixPeelFailure m peel_a c fuel x (referenced row_i before refs) = some refs := by
  induction before generalizing weight x fuel refs with
  | nil =>
    cases weight with
    | zero => exact absurd hwalk.symm (List.cons_ne_nil _ _)
    | succ weight =>
      obtain ⟨f, rfl⟩ := Nat.exists_eq_succ_of_ne_zero (Nat.zero_lt_of_lt hfuel).ne'
      obtain ⟨rfl, -⟩ := List.cons.inj hwalk
      unfold fixPeelFailure
      rw [if_pos rfl]
      exact congrArg some (funext fun _ => if_neg List.not_mem_nil)
  | cons a before ih =>
    cases weight with
    | zero => exact absurd hwalk.symm (List.cons_ne_nil _ _)
    | succ weight =>
      obtain ⟨f, rfl⟩ := Nat.exists_eq_succ_of_ne_zero (Nat.zero_lt_of_lt hfuel).ne'
      obtain ⟨rfl, hrest⟩ := List.cons.inj hwalk
      rw [List.cons_append] at hnd
      obtain ⟨hx, hnd⟩ := List.nodup_cons.mp hnd
      have hxc : x ≠ c := fun hxc => hx (hxc ▸ List.mem_append_right _ List.mem_cons_self)
      have hbefore : x ∉ before := fun hmem => hx (List.mem_append_left _ hmem)
      have hback : Function.update (referenced row_i (x :: before) refs) x
          (referenced row_i (x :: before) refs x).dropLast = referenced row_i before refs := by
        funext y
        unfold referenced
        by_cases hyx : y = x
        · rw [hyx, Function.update_self, if_pos List.mem_cons_self, if_neg hbefore,
            List.dropLast_concat]
        · rw [Function.update_of_ne hyx]
          simp only [List.mem_cons, hyx, false_or]
      unfold fixPeelFailure
      rw [if_neg hxc, hback]
      exact ih hrest hnd (by rw [List.length_cons] at hfuel; omega)

end References

section Rows

variable {m : CheckMatrix} {s : State} {n : Nat} {id : u32} {peeled deferred : List Nat}

theorem CheckMatrix.prime (m : CheckMatrix) : m.block_next_prime.Prime ∧
    m.block_count ≤ m.block_next_prime ∧ m.block_next_prime ≤ 0x10000 := by
  obtain ⟨q, hrun, hq, hge, hle⟩ := nextPrime16_spec m.min_le m.le_max
  have heq := (hrun 0x10000 (by norm_num)).symm.trans m.next_prime
  obtain rfl := Option.some.inj heq
  exact ⟨hq, hge, by omega⟩

/-- The columns of a new row. -/
def newColumns (m : CheckMatrix) (id : u32) : List Nat :=
  m.columns (generatePeelRow id m.p_seed m.block_count m.mix_count)

theorem newColumns_spec (m : CheckMatrix) (id : u32) : (newColumns m id).Nodup ∧
    (∀ x ∈ newColumns m id, x < m.block_count) ∧ (newColumns m id).length ≤ m.block_count := by
  obtain ⟨hprime, hge, hle⟩ := m.prime
  have hvalid := generatePeelRow_valid id m.p_seed m.min_le m.mix_count
  refine ⟨hvalid.walk_nodup hge hle hprime, hvalid.walk_lt hge hle, ?_⟩
  unfold newColumns CheckMatrix.columns
  rw [length_walk]
  exact hvalid.weight_le.trans (Nat.div_le_self _ _)

theorem agreeOff_newRow (m : CheckMatrix) (id : u32) (n : Nat) (s : State) :
    AgreeOff n s (s.setRow n (newRow m id (s.peel_rows n))) := agreeOff_setRow s n _

/-- `OpportunisticPeeling` by what its loop ends with. -/
theorem opportunisticPeeling_eq (m : CheckMatrix) (fuel n : Nat) (id : u32) (s : State) :
    opportunisticPeeling m fuel n id s =
      match reference s.peel_cols n (newColumns m id) s.peel_col_refs ⟨0, 0, 0⟩ with
      | .full c refs =>
        (fixPeelFailure m (newRow m id (s.peel_rows n)).peel_a c fuel
            (newRow m id (s.peel_rows n)).peel_x0 refs).map fun refs =>
          (false, { s.setRow n (newRow m id (s.peel_rows n)) with peel_col_refs := refs })
      | .done refs u =>
        (startRow m fuel n u
            { s.setRow n (newRow m id (s.peel_rows n)) with peel_col_refs := refs }).map fun s =>
          (true, s) := by
  unfold opportunisticPeeling
  dsimp only
  rw [show reference (s.setRow n (newRow m id (s.peel_rows n))).peel_cols n
    (m.columns (newRow m id (s.peel_rows n)).toGenerators)
    (s.setRow n (newRow m id (s.peel_rows n))).peel_col_refs ⟨0, 0, 0⟩ =
      reference s.peel_cols n (newColumns m id) s.peel_col_refs ⟨0, 0, 0⟩ from rfl]
  cases reference s.peel_cols n (newColumns m id) s.peel_col_refs ⟨0, 0, 0⟩ with
  | full c refs =>
    dsimp only
    cases fixPeelFailure m (newRow m id (s.peel_rows n)).peel_a c fuel
      (newRow m id (s.peel_rows n)).peel_x0 refs <;> rfl
  | done refs u =>
    dsimp only
    cases startRow m fuel n u
      { s.setRow n (newRow m id (s.peel_rows n)) with peel_col_refs := refs } <;> rfl

/-- A row that is rejected: only its slot is written. -/
theorem opportunisticPeeling_full {c : Nat} {refs : Nat → List Nat}
    (h : reference s.peel_cols n (newColumns m id) s.peel_col_refs ⟨0, 0, 0⟩ = .full c refs) :
    (c ∈ newColumns m id ∧ CAT_REF_LIST_MAX ≤ (s.peel_col_refs c).length) ∧
      ∀ fuel, m.block_count < fuel → opportunisticPeeling m fuel n id s =
        some (false, s.setRow n (newRow m id (s.peel_rows n))) := by
  obtain ⟨hnd, -, hlen⟩ := newColumns_spec m id
  obtain ⟨before, after, hsplit, hfull, rfl⟩ := reference_full hnd h
  refine ⟨⟨hsplit ▸ List.mem_append_right _ List.mem_cons_self, hfull⟩, fun fuel hfuel => ?_⟩
  have hbefore : before.length < fuel := by
    rw [hsplit, List.length_append, List.length_cons] at hlen
    omega
  have hfix : fixPeelFailure m (newRow m id (s.peel_rows n)).peel_a c fuel
      (newRow m id (s.peel_rows n)).peel_x0 (referenced n before s.peel_col_refs) =
        some s.peel_col_refs := fixPeelFailure_spec hsplit (hsplit ▸ hnd) hbefore
  rw [opportunisticPeeling_eq, h]
  dsimp only
  rw [hfix]
  rfl

/-- The row in the slot of a rejected row starts as if that row had never come. -/
theorem opportunisticPeeling_again (m : CheckMatrix) (fuel n : Nat) (id id' : u32) (s : State) :
    opportunisticPeeling m fuel n id' (s.setRow n (newRow m id (s.peel_rows n))) =
      opportunisticPeeling m fuel n id' s := by
  have hslot : newRow m id' ((s.setRow n (newRow m id (s.peel_rows n))).peel_rows n) =
      newRow m id' (s.peel_rows n) := by
    rw [setRow_self]
    rfl
  have hstate : (s.setRow n (newRow m id (s.peel_rows n))).setRow n (newRow m id' (s.peel_rows n)) =
      s.setRow n (newRow m id' (s.peel_rows n)) := by
    unfold State.setRow
    dsimp only
    rw [Function.update_idem]
  unfold opportunisticPeeling
  dsimp only
  rw [hslot, hstate]

/-- One more row that is stored, and worked on. -/
theorem Inv.addRow (h : Inv m s n (fun _ => False) (fun _ _ => False) peeled deferred)
    {s' : State} (hoff : AgreeOff n s { s' with peel_col_refs := s.peel_col_refs })
    (hrefs : s'.peel_col_refs = referenced n (s'.columns m n) s.peel_col_refs)
    (hnd : (s'.columns m n).Nodup) (hlt : ∀ x ∈ s'.columns m n, x < m.block_count) :
    Inv m s' (n + 1) (fun r => r = n) (fun _ _ => False) peeled deferred := by
  have hlist : n ∉ peeled ++ deferred := fun hn => Nat.lt_irrefl n (h.lt n hn)
  obtain ⟨hnodup_columns, hcolumns_lt, hrefs_iff, hnodup_refs, hpending, hnodup, hlt', hworking,
    hpeeled_list, htail, hdeferred_list, hlive, hfinished, hsolves, hsolved, hsolved_once, horder⟩ :=
    h.off hoff (fun hn => absurd hn (Nat.lt_irrefl n)) hlist fun hn => absurd hn (Nat.lt_irrefl n)
  have hcases : ∀ r, r < n + 1 → r = n ∨ r < n := fun r hr => by omega
  constructor
  case nodup_columns => exact fun r hr => (hcases r hr).elim (fun hn => hn ▸ hnd) (hnodup_columns r)
  case columns_lt => exact fun r hr => (hcases r hr).elim (fun hn => hn ▸ hlt) (hcolumns_lt r)
  case refs =>
    intro x r
    have hold : r ∈ s.peel_col_refs x ↔ r < n ∧ x ∈ s'.columns m r := hrefs_iff x r
    rw [hrefs]
    unfold referenced
    by_cases hx : x ∈ s'.columns m n
    · rw [if_pos hx, List.mem_append, List.mem_singleton, hold]
      constructor
      · rintro (⟨hr, hxr⟩ | rfl)
        · exact ⟨by omega, hxr⟩
        · exact ⟨Nat.lt_succ_self r, hx⟩
      · rintro ⟨hr, hxr⟩
        exact (hcases r hr).symm.imp (fun hrn => ⟨hrn, hxr⟩) id
    · rw [if_neg hx, hold]
      refine ⟨fun hr => ⟨by omega, hr.2⟩, fun ⟨hr, hxr⟩ => ⟨?_, hxr⟩⟩
      exact (hcases r hr).resolve_left fun hrn => hx (hrn ▸ hxr)
  case nodup_refs =>
    intro x
    rw [hrefs]
    unfold referenced
    split
    · refine List.nodup_append.mpr ⟨hnodup_refs x, List.nodup_singleton n, fun a ha b hb hab => ?_⟩
      have hlt := ((hrefs_iff x a).mp ha).1
      rw [List.mem_singleton] at hb
      omega
    · exact hnodup_refs x
  case pending => exact fun _ _ hf => hf.elim
  case nodup => exact hnodup
  case lt => exact fun r hr => Nat.lt_succ_of_lt (hlt' r hr)
  case working => exact fun r hr => hr ▸ hlist
  case peeled_list => exact hpeeled_list
  case tail => exact htail
  case deferred_list => exact hdeferred_list
  case live =>
    intro r hr hrn hmem
    obtain ⟨hcnt, htwo, hknown⟩ := hlive r ((hcases r hr).resolve_left hrn) id hmem
    exact ⟨hcnt, htwo, hknown⟩
  case finished => exact fun r hr => ⟨(hfinished r hr).count_le, (hfinished r hr).open_le⟩
  case solves => exact hsolves
  case solved => exact hsolved
  case solved_once => exact hsolved_once
  case order => exact horder

/-- A row that is stored, by the number of its unmarked columns: deferred, solved, or left live. -/
theorem startRow_spec (h : Inv m s (n + 1) (fun r => r = n) (fun _ _ => False) peeled deferred)
    {u : Unmarked}
    (hu : u = ((s.columns m n).filter fun x => decide (s.mark x = MARK_TODO)).foldl Unmarked.add
      ⟨0, 0, 0⟩) :
    ∃ s' peeled' deferred', (∀ fuel, m.block_count < fuel → startRow m fuel n u s = some s') ∧
      Inv m s' (n + 1) (fun _ => False) (fun _ _ => False) peeled' deferred' := by
  set s1 := s.setRow n { s.peel_rows n with unmarked_count := u.count } with hs1
  have hoff : AgreeOff n s s1 := agreeOff_setRow s n _
  have hself : s1.peel_rows n = { s.peel_rows n with unmarked_count := u.count } := setRow_self s n _
  have hlist := h.working n rfl
  have hcols : s1.columns m n = s.columns m n := (columns_eq hself).trans rfl
  have hinv := h.off hoff (fun _ => rfl) hlist fun _ => hcols
  have hcount : s1.count n = u.count := (count_eq hself).trans rfl
  set l := (s.columns m n).filter fun x => decide (s.mark x = MARK_TODO) with hl
  have hopen : openCount m s1 (fun _ _ => False) n = l.length := by
    rw [openCount_mark hcols hoff.mark, hl, ← List.countP_eq_length_filter]
    exact List.countP_congr fun x _ => by
      rw [isOpen_iff, decide_eq_true_iff, or_false]
  have hmem : ∀ x ∈ s1.columns m n, s1.mark x = MARK_TODO → x ∈ l := fun x hx hxT => by
    rw [hcols] at hx
    rw [hoff.mark] at hxT
    exact List.mem_filter.mpr ⟨hx, decide_eq_true hxT⟩
  have hadd : ∀ (l : List Nat) (u : Unmarked), (l.foldl Unmarked.add u).count = u.count + l.length := by
    intro l
    induction l with
    | nil => exact fun _ => rfl
    | cons a l ih =>
      intro u
      rw [List.foldl_cons, ih, List.length_cons]
      show u.count + 1 + l.length = _
      omega
  have hlen : u.count = l.length := by
    rw [hu, hadd]
    exact Nat.zero_add _
  match hlm : l with
  | [] =>
    have hu0 : u.count = 0 := hlen
    refine ⟨s1.deferRow n, peeled, n :: deferred, fun fuel _ => ?_,
      hinv.deferRow (Nat.lt_succ_self n) ⟨?_, ?_⟩⟩
    · unfold startRow
      simp only [hu0]
      rw [hs1, hu0]
    · rw [hcount, hu0]
      decide
    · rw [hopen]
      exact Nat.zero_le _
  | [x] =>
    have hu1 : u = ⟨1, (x, 0)⟩ := hu
    have hxl : x ∈ l := by
      rw [hlm]
      exact List.mem_singleton.mpr rfl
    obtain ⟨hxcol, hxtodo⟩ := List.mem_filter.mp hxl
    have hxtodo1 : s1.mark x = MARK_TODO := (hoff.mark x).trans (of_decide_eq_true hxtodo)
    have hfin : Finished m s1 (fun _ _ => False) n := by
      constructor
      · rw [hcount, hu1]
        show (1 + 2) % 0x10000 ≤ 3
        decide
      · rw [hopen, hcount, hu1]
        show 1 ≤ (1 + 2) % 0x10000
        decide
    obtain ⟨s', peeled', deferred', hrun, hinv', -⟩ :=
      peel_settles (avalanches m (n + 1) m.block_count) hinv (Nat.lt_succ_self n) (hcols.symm ▸ hxcol)
        hxtodo1 (fun y hy hne hyT => hne (List.mem_singleton.mp (hmem y hy hyT))) hfin
        (todo_le m s1)
    refine ⟨s', peeled', deferred', fun fuel hfuel => ?_, hinv'⟩
    have hpeel : peel (peelAvalanche m fuel) n x s1 = some s' := hrun fuel hfuel.le
    rw [← hpeel, hs1, hu1]
    rfl
  | [x, y] =>
    have hu2 : u = ⟨2, (x, y)⟩ := hu
    set s2 := s1.setRow n { s1.peel_rows n with unmarked := (x, y) } with hs2
    have hoff2 : AgreeOff n s1 ((s2.countW2 x).countW2 y) :=
      ((agreeOff_setRow s1 n _).trans (agreeOff_countW2 s2 n x)).trans (agreeOff_countW2 _ n y)
    have hself2 : ((s2.countW2 x).countW2 y).peel_rows n =
        { s1.peel_rows n with unmarked := (x, y) } := by
      rw [countW2_rows, countW2_rows, hs2, setRow_self]
    have hcols2 : ((s2.countW2 x).countW2 y).columns m n = s1.columns m n :=
      (columns_eq hself2).trans rfl
    have hopen2 := (openCount_mark (P := fun _ _ => False) hcols2 hoff2.mark).trans hopen
    refine ⟨(s2.countW2 x).countW2 y, peeled, deferred, fun fuel _ => ?_,
      (hinv.off hoff2 (fun _ => rfl) hlist fun _ => hcols2).settle fun _ => ⟨?_, ?_, ?_⟩⟩
    · rw [hs2, hs1, hu2]
      rfl
    · rw [hopen2]
      unfold State.count
      rw [hself2]
      show s1.count n = _
      rw [hcount, hu2]
      rfl
    · rw [hopen2]
      exact le_rfl
    · intro _ z hz hzopen
      rw [hcols2] at hz
      rw [hoff2.mark] at hzopen
      have hzl := hmem z hz (hzopen.resolve_right id)
      unfold State.unmarked
      rw [hself2]
      simpa using hzl
  | x :: y :: z :: l' =>
    have hu3 : u.count = l'.length + 3 := hlen
    refine ⟨s1, peeled, deferred, fun fuel _ => ?_, hinv.settle fun _ => ⟨?_, ?_, fun h2 => ?_⟩⟩
    · unfold startRow
      simp only [hu3]
      rw [hs1, hu3]
    · rw [hcount, hopen, hlen]
    · rw [hopen]
      simp
    · rw [hopen] at h2
      simp at h2

/-- A row that is accepted is stored. -/
theorem opportunisticPeeling_done {refs : Nat → List Nat} {u : Unmarked}
    (hinv : Inv m s n (fun _ => False) (fun _ _ => False) peeled deferred)
    (h : reference s.peel_cols n (newColumns m id) s.peel_col_refs ⟨0, 0, 0⟩ = .done refs u) :
    ∃ s' peeled' deferred', (∀ fuel, m.block_count < fuel →
        opportunisticPeeling m fuel n id s = some (true, s')) ∧
      Inv m s' (n + 1) (fun _ => False) (fun _ _ => False) peeled' deferred' := by
  obtain ⟨hnd, hlt, -⟩ := newColumns_spec m id
  obtain ⟨hrefs, hu⟩ := reference_done hnd h
  set s1 : State := { s.setRow n (newRow m id (s.peel_rows n)) with peel_col_refs := refs } with hs1
  have hcols : s1.columns m n = newColumns m id := by
    have hself : s1.peel_rows n = newRow m id (s.peel_rows n) := setRow_self s n _
    unfold State.columns
    rw [hself]
    rfl
  have hadd : Inv m s1 (n + 1) (fun r => r = n) (fun _ _ => False) peeled deferred :=
    hinv.addRow (agreeOff_newRow m id n s) (hcols.symm ▸ hrefs) (hcols.symm ▸ hnd) (hcols.symm ▸ hlt)
  obtain ⟨s', peeled', deferred', hrun, hinv'⟩ := startRow_spec hadd (u := u) (by
    rw [hcols]
    exact hu)
  refine ⟨s', peeled', deferred', fun fuel hfuel => ?_, hinv'⟩
  rw [opportunisticPeeling_eq, h]
  dsimp only
  rw [hrun fuel hfuel]
  rfl

end Rows

section Runs

variable {m : CheckMatrix} {d : Decoder} {id : u32}

/-- Blocks into the decoder, one after the other. -/
def feedAll (m : CheckMatrix) (fuel : Nat) : List u32 → Decoder → Option Decoder
  | [], d => some d
  | id :: ids, d => do
    let (_, d) ← decodeFeed m fuel id d
    feedAll m fuel ids d

/-- The invariant of a decoder: it holds for the rows that are stored. -/
structure Stored (m : CheckMatrix) (d : Decoder) : Prop where
  le : d.row_count ≤ m.block_count
  inv : ∃ peeled deferred,
    Inv m d.peeling d.row_count (fun _ => False) (fun _ _ => False) peeled deferred

theorem stored_initializeDecoder (m : CheckMatrix) (memory : Nat → PeelRow)
    (next : Nat → Option Nat) : Stored m (initializeDecoder memory next) where
  le := Nat.zero_le _
  inv := by
    refine ⟨[], [], ?_⟩
    constructor
    case refs => exact fun x r => iff_of_false List.not_mem_nil fun h => Nat.not_lt_zero r h.1
    case nodup_refs => exact fun _ => List.nodup_nil
    case pending => exact fun _ _ hf => hf.elim
    case nodup => exact List.nodup_nil
    case working => exact fun _ hf => hf.elim
    case peeled_list => rfl
    case tail => rfl
    case deferred_list => rfl
    case solved => exact fun _ h => Mark.noConfusion h
    case solved_once => exact List.nodup_nil
    case order => exact fun before _ _ h => absurd h.symm (by simp)
    case nodup_columns => exact fun r hr => absurd hr (Nat.not_lt_zero r)
    case columns_lt => exact fun r hr => absurd hr (Nat.not_lt_zero r)
    case live => exact fun r hr => absurd hr (Nat.not_lt_zero r)
    all_goals exact fun r hr => absurd hr List.not_mem_nil

/-- A new row is rejected at a full list, or stored. -/
theorem Stored.opportunisticPeeling (h : Stored m d) (hlt : d.row_count < m.block_count) (id : u32) :
    ∃ accepted s', (∀ fuel, m.block_count < fuel →
        opportunisticPeeling m fuel d.row_count id d.peeling = some (accepted, s')) ∧
      (accepted = false → s' = d.peeling.setRow d.row_count
          (newRow m id (d.peeling.peel_rows d.row_count)) ∧
        ∃ c ∈ newColumns m id, CAT_REF_LIST_MAX ≤ (d.peeling.peel_col_refs c).length) ∧
      ∀ all_original, Stored m
        ⟨if accepted then d.row_count + 1 else d.row_count, all_original, s'⟩ := by
  obtain ⟨hle, peeled, deferred, hinv⟩ := h
  have hlist : d.row_count ∉ peeled ++ deferred := fun hn => Nat.lt_irrefl _ (hinv.lt _ hn)
  cases hend : reference d.peeling.peel_cols d.row_count (newColumns m id) d.peeling.peel_col_refs
    ⟨0, 0, 0⟩ with
  | full c refs =>
    obtain ⟨⟨hmem, hfull⟩, hrun⟩ := opportunisticPeeling_full hend
    refine ⟨false, _, hrun, fun _ => ⟨rfl, c, hmem, hfull⟩, fun _ => ⟨hle, peeled, deferred, ?_⟩⟩
    exact hinv.off (agreeOff_newRow m id _ _) (fun hn => absurd hn (Nat.lt_irrefl _)) hlist
      fun hn => absurd hn (Nat.lt_irrefl _)
  | done refs u =>
    obtain ⟨s', peeled', deferred', hrun, hinv'⟩ := opportunisticPeeling_done hinv hend
    exact ⟨true, s', hrun, fun hf => absurd hf.symm Bool.false_ne_true,
      fun _ => ⟨hlt, peeled', deferred', hinv'⟩⟩

theorem Stored.decodeFeed (h : Stored m d) (id : u32) :
    ∃ result d', (∀ fuel, m.block_count < fuel → decodeFeed m fuel id d = some (result, d')) ∧
      Stored m d' := by
  by_cases hlt : d.row_count < m.block_count
  · obtain ⟨accepted, s', hrun, -, hstored⟩ := h.opportunisticPeeling hlt id
    refine ⟨if accepted ∧ (if accepted then d.row_count + 1 else d.row_count) = m.block_count then
        .R_WIN else .R_MORE_BLOCKS,
      _, fun fuel hfuel => ?_, hstored (if id.toNat ≥ m.block_count then false else d.all_original)⟩
    unfold Peeling.decodeFeed
    rw [if_pos hlt]
    dsimp only
    rw [hrun fuel hfuel]
    rfl
  · exact ⟨.R_WIN, d, fun fuel _ => if_neg hlt, h⟩

theorem Stored.feedAll (h : Stored m d) (ids : List u32) :
    ∃ d', (∀ fuel, m.block_count < fuel → feedAll m fuel ids d = some d') ∧ Stored m d' := by
  induction ids generalizing d with
  | nil => exact ⟨d, fun _ _ => rfl, h⟩
  | cons id ids ih =>
    obtain ⟨result, d1, hrun, h1⟩ := h.decodeFeed id
    obtain ⟨d', hrest, h'⟩ := ih h1
    refine ⟨d', fun fuel hfuel => ?_, h'⟩
    unfold Peeling.feedAll
    rw [hrun fuel hfuel]
    exact hrest fuel hfuel

/-- The outcome of peeling. -/
structure Peeled (m : CheckMatrix) (s : State) (peeled deferred : List Nat) : Prop where
  peeled_list : Seg s.next s.peel_head_rows peeled none
  deferred_list : Seg s.next s.defer_head_rows deferred none
  marked : ∀ x < m.block_count, s.mark x = MARK_PEEL ∨ s.mark x = MARK_DEFER
  rows : (peeled ++ deferred).Perm (List.range m.block_count)
  solved : ∀ x < m.block_count, s.mark x = MARK_PEEL →
    ∃! r, r ∈ peeled ∧ (s.peel_rows r).peel_column = x
  deferred_eq : deferred.length =
    ((List.range m.block_count).filter fun x => decide (s.mark x = MARK_DEFER)).length
  order : ∀ before r after, peeled = before ++ r :: after →
    (s.peel_rows r).peel_column ∈ s.columns m r ∧ s.mark (s.peel_rows r).peel_column = MARK_PEEL ∧
      ∀ x ∈ s.columns m r, x ≠ (s.peel_rows r).peel_column →
        s.mark x = MARK_DEFER ∨ ∃ r' ∈ before, (s.peel_rows r').peel_column = x

theorem Inv.peeled {s : State} {peeled deferred : List Nat}
    (h : Inv m s m.block_count (fun _ => False) (fun _ _ => False) peeled deferred)
    (hmarks : ∀ x < m.block_count, s.mark x ≠ MARK_TODO) : Peeled m s peeled deferred := by
  have hmarked : ∀ x < m.block_count, s.mark x = MARK_PEEL ∨ s.mark x = MARK_DEFER := by
    intro x hx
    cases hmark : s.mark x with
    | MARK_TODO => exact absurd hmark (hmarks x hx)
    | MARK_PEEL => exact .inl rfl
    | MARK_DEFER => exact .inr rfl
  -- a live row would have open columns
  have hall : ∀ r < m.block_count, r ∈ peeled ++ deferred := by
    intro r hr
    by_contra hlist
    have htwo := (h.live r hr id hlist).two_le
    have hzero : openCount m s (fun _ _ => False) r = 0 :=
      List.countP_eq_zero.mpr fun x hx hopen =>
        (isOpen_iff.mp hopen).elim (hmarks x (h.columns_lt r hr x hx)) id
    omega
  have hrows : (peeled ++ deferred).Perm (List.range m.block_count) :=
    (List.perm_ext_iff_of_nodup h.nodup List.nodup_range).mpr fun r =>
      ⟨fun hr => List.mem_range.mpr (h.lt r hr), fun hr => hall r (List.mem_range.mp hr)⟩
  have hpeeledlt : ∀ r ∈ peeled, r < m.block_count := fun r hr =>
    h.lt r (List.mem_append_left _ hr)
  -- the peeled columns are the columns of the peeled rows
  have hcolumns : (peeled.map fun r => (s.unmarked r).1).Perm
      ((List.range m.block_count).filter fun x => decide (s.mark x = MARK_PEEL)) := by
    refine (List.perm_ext_iff_of_nodup h.solved_once (List.nodup_range.filter _)).mpr fun x => ?_
    rw [List.mem_map, List.mem_filter, List.mem_range, decide_eq_true_iff]
    constructor
    · rintro ⟨r, hr, rfl⟩
      obtain ⟨hmem, hpeel⟩ := h.solves r hr
      exact ⟨h.columns_lt r (hpeeledlt r hr) _ hmem, hpeel⟩
    · exact fun ⟨_, hpeel⟩ => h.solved x hpeel
  have hsplit : ((List.range m.block_count).filter fun x => decide (s.mark x = MARK_PEEL)).length +
      ((List.range m.block_count).filter fun x => decide (s.mark x = MARK_DEFER)).length =
        m.block_count := by
    have hcount := List.length_eq_countP_add_countP (fun x => decide (s.mark x = MARK_PEEL))
      (l := List.range m.block_count)
    rw [List.length_range] at hcount
    rw [← List.countP_eq_length_filter, ← List.countP_eq_length_filter]
    refine Eq.trans (congrArg (_ + ·) (List.countP_congr fun x hx => ?_)) hcount.symm
    rcases hmarked x (List.mem_range.mp hx) with hx' | hx' <;> simp [hx']
  refine ⟨h.peeled_list, h.deferred_list, hmarked, hrows, fun x _ hpeel => ?_, ?_,
    fun before r after heq => ?_⟩
  · obtain ⟨r, hr, hrx⟩ := h.solved x hpeel
    exact ⟨r, ⟨hr, hrx⟩, fun r' hr' =>
      List.inj_on_of_nodup_map h.solved_once hr'.1 hr (hr'.2.trans hrx.symm)⟩
  · have hlen := hrows.length_eq
    have hpeeledlen := hcolumns.length_eq
    rw [List.length_append, List.length_range] at hlen
    rw [List.length_map] at hpeeledlen
    omega
  · have hr : r ∈ peeled := heq ▸ List.mem_append_right _ List.mem_cons_self
    obtain ⟨hmem, hpeel⟩ := h.solves r hr
    exact ⟨hmem, hpeel, h.order before r after heq⟩

/-- **Peeling invariant.** Once as many rows as columns are stored, greedy peeling ends with every column
peeled or deferred, every row in one of the two lists, and the peeled rows in an order in which each
column but the one that the row solves comes before it. -/
theorem peeling_invariant (m : CheckMatrix) (memory : Nat → PeelRow) (next : Nat → Option Nat)
    (ids : List u32) :
    ∃ d, (∀ fuel, m.block_count < fuel →
        feedAll m fuel ids (initializeDecoder memory next) = some d) ∧
      (d.row_count = m.block_count → ∃ s peeled deferred,
        (∀ fuel, m.block_count < fuel → greedyPeeling m fuel d.peeling = some s) ∧
        Peeled m s peeled deferred) := by
  obtain ⟨d, hrun, hle, peeled, deferred, hinv⟩ := (stored_initializeDecoder m memory next).feedAll ids
  refine ⟨d, hrun, fun hall => ?_⟩
  obtain ⟨s, peeled', deferred', hgreedy, hinv', hmarks⟩ := greedyPeeling_spec hinv
  rw [hall] at hinv'
  exact ⟨s, peeled', deferred', hgreedy, hinv'.peeled hmarks⟩

/-- **A rejected row leaves no trace.** The reference lists, the columns with their marks and counts, and
the links of the two lists are as before, and what comes into the slot next finds the decoder as if the
row had never come. -/
theorem rejected_row (m : CheckMatrix) (memory : Nat → PeelRow) (next : Nat → Option Nat)
    (ids : List u32) (id : u32) :
    ∃ d, (∀ fuel, m.block_count < fuel →
        feedAll m fuel ids (initializeDecoder memory next) = some d) ∧
      (d.row_count < m.block_count → ∃ accepted s', (∀ fuel, m.block_count < fuel →
          opportunisticPeeling m fuel d.row_count id d.peeling = some (accepted, s')) ∧
        (accepted = false →
          (∃ c ∈ newColumns m id, CAT_REF_LIST_MAX ≤ (d.peeling.peel_col_refs c).length) ∧
          s'.peel_col_refs = d.peeling.peel_col_refs ∧ s'.peel_cols = d.peeling.peel_cols ∧
          s'.peel_head_rows = d.peeling.peel_head_rows ∧
          s'.peel_tail_rows = d.peeling.peel_tail_rows ∧
          s'.defer_head_rows = d.peeling.defer_head_rows ∧ s'.next = d.peeling.next ∧
          (∀ r, r ≠ d.row_count → s'.peel_rows r = d.peeling.peel_rows r) ∧
          (∀ fuel, m.block_count < fuel → ∃ all_original,
            decodeFeed m fuel id d = some (.R_MORE_BLOCKS, ⟨d.row_count, all_original, s'⟩)) ∧
          ∀ fuel id', opportunisticPeeling m fuel d.row_count id' s' =
            opportunisticPeeling m fuel d.row_count id' d.peeling)) := by
  obtain ⟨d, hrun, hstored⟩ := (stored_initializeDecoder m memory next).feedAll ids
  refine ⟨d, hrun, fun hlt => ?_⟩
  obtain ⟨accepted, s', hopp, hreject, -⟩ := hstored.opportunisticPeeling hlt id
  refine ⟨accepted, s', hopp, fun hfalse => ?_⟩
  obtain ⟨rfl, hfull⟩ := hreject hfalse
  subst hfalse
  refine ⟨hfull, rfl, rfl, rfl, rfl, rfl, ?_, (agreeOff_newRow m id _ _).row, fun fuel hfuel => ?_,
    fun fuel id' => opportunisticPeeling_again m fuel _ id id' _⟩
  · funext r
    unfold State.next
    by_cases hr : r = d.row_count
    · rw [hr, setRow_self]
      rfl
    · rw [(agreeOff_newRow m id d.row_count d.peeling).row r hr]
  · refine ⟨if id.toNat ≥ m.block_count then false else d.all_original, ?_⟩
    unfold Peeling.decodeFeed
    rw [if_pos hlt]
    dsimp only
    rw [hopp fuel hfuel]
    rfl

end Runs

end Libcat.Fec.Peeling
