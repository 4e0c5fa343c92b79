import Mathlib.Tactic

/-!
# Finalization order of RefSingletons

`GetRef` initializes a singleton on its first use: `OnInitialize` declares the singletons it uses,
which initializes them first, and each raises the priority of the user above its own. `OnFinalize`
of `RefSingletons` sorts by priority into bins, and what is over the bins by a merge sort, and
finalizes from the lowest priority up.

- `Registered`: the invariant of the registry between two first uses.
- `finalizeOrder_perm`: every initialized singleton is finalized once, whatever its priority.
- A user has a higher number than what it uses, so it is finalized after it.
-/

namespace Libcat.Lang

/-! ## The registry -/

/-- What the singletons are: which ones each declares with `Use`, in order, and the result of its
`OnInitialize`. -/
structure Singletons (T : Type) where
  uses : T → List T
  succeeds : T → Bool

/-- The members of all `RefSingletonBase` and `_active_list`. -/
structure Registry (T : Type) where
  init : T → Bool
  finalPriority : T → Int
  initSuccess : T → Bool
  activeList : List T

section Model

variable {T : Type}

def Registry.empty : Registry T where
  init := fun _ => false
  finalPriority := fun _ => 0
  initSuccess := fun _ => false
  activeList := []

variable [DecidableEq T]

/-- `UpdatePriority` of `x` for the instance `s`. -/
def updatePriority (x s : T) (r : Registry T) : Registry T :=
  { r with
    finalPriority :=
      if r.finalPriority x ≤ r.finalPriority s then
        Function.update r.finalPriority x (r.finalPriority s + 1)
      else r.finalPriority
    initSuccess :=
      if r.initSuccess s then r.initSuccess else Function.update r.initSuccess x false }

/-- The members of `x` before its `OnInitialize`. -/
def begin (x : T) (r : Registry T) : Registry T :=
  { r with
    finalPriority := Function.update r.finalPriority x (-1)
    initSuccess := Function.update r.initSuccess x true }

/-- The end of `GetRef`, with the result of `OnInitialize`. -/
def finish (x : T) (success : Bool) (r : Registry T) : Registry T where
  init := Function.update r.init x true
  finalPriority :=
    if r.finalPriority x < 0 then Function.update r.finalPriority x 1 else r.finalPriority
  initSuccess := if success then r.initSuccess else Function.update r.initSuccess x false
  activeList := x :: r.activeList

/-- `GetRef`. The fuel bounds the depth of first uses inside of first uses. -/
def getRef (g : Singletons T) : Nat → T → Registry T → Registry T
  | 0, _, r => r
  | fuel + 1, x, r =>
    if r.init x then r
    else
      finish x (g.succeeds x)
        ((g.uses x).foldl (fun r s => updatePriority x s (getRef g fuel s r)) (begin x r))

/-- The first references of a program, in order. -/
def getRefs (g : Singletons T) (fuel : Nat) (roots : List T) : Registry T :=
  roots.foldl (fun r x => getRef g fuel x r) .empty

/-! ## Finalization -/

def binCount : Nat := 16

/-- The bin sort: every singleton is pushed to the front of its bin or of the dregs. -/
def binSort (priority : T → Int) : List T → (Nat → List T) × List T → (Nat → List T) × List T
  | [], b => b
  | ii :: rest, (bins, dregs) =>
    if (priority ii).toNat < binCount then
      binSort priority rest
        (Function.update bins (priority ii).toNat (ii :: bins (priority ii).toNat), dregs)
    else binSort priority rest (bins, ii :: dregs)

/-- One step size of `MergeSort`: the runs on the skip list are merged two by two. -/
def mergePairs (priority : T → Int) : List (List T) → List (List T)
  | a :: b :: rest =>
    a.merge b (fun x y => decide (priority x ≤ priority y)) :: mergePairs priority rest
  | runs => runs

def mergeRuns (priority : T → Int) : Nat → List (List T) → List T
  | 0, runs => runs.flatten
  | fuel + 1, runs =>
    if runs.length ≤ 1 then runs.flatten else mergeRuns priority fuel (mergePairs priority runs)

/-- `RefSingletonBase::MergeSort`. -/
def mergeSort (priority : T → Int) (list : List T) : List T :=
  mergeRuns priority list.length (list.map fun x => [x])

/-- The order in which `RefSingletons::OnFinalize` calls `OnFinalize`. -/
def finalizeOrder (r : Registry T) : List T :=
  let (bins, dregs) := binSort r.finalPriority r.activeList (fun _ => [], [])
  (List.range binCount).flatMap bins ++ mergeSort r.finalPriority dregs

/-- What the finalization promises: every initialized singleton once, and each before the ones it
declared with `Use`. -/
structure FinalizesUsersFirst (g : Singletons T) (r : Registry T) : Prop where
  nodup : (finalizeOrder r).Nodup
  mem : ∀ x, x ∈ finalizeOrder r ↔ r.init x = true
  before : ∀ u ∈ finalizeOrder r, ∀ d ∈ g.uses u,
    (finalizeOrder r).idxOf u < (finalizeOrder r).idxOf d

/-- The declared dependencies have no cycle. -/
def Acyclic (g : Singletons T) : Prop := ∀ x, ¬ Relation.TransGen (fun u d => d ∈ g.uses u) x x

/-! ## The bins -/

omit [DecidableEq T] in
theorem binSort_spec (priority : T → Int) :
    ∀ (list : List T) (bins : Nat → List T) (dregs : List T),
      binSort priority list (bins, dregs) =
        (fun p => (list.filter fun x => (priority x).toNat = p ∧ p < binCount).reverse ++ bins p,
          (list.filter fun x => ¬ (priority x).toNat < binCount).reverse ++ dregs) := by
  intro list
  induction list with
  | nil =>
    intro bins dregs
    rfl
  | cons x rest ih =>
    intro bins dregs
    unfold binSort
    by_cases hlow : (priority x).toNat < binCount
    · rw [if_pos hlow, ih]
      refine Prod.ext ?_ ?_
      · funext p
        by_cases hp : (priority x).toNat = p
        · subst hp
          simp [hlow]
        · simp [hp, Function.update_of_ne (Ne.symm hp)]
      · simp [hlow]
    · rw [if_neg hlow, ih]
      refine Prod.ext ?_ ?_
      · funext p
        have hp : ¬ ((priority x).toNat = p ∧ p < binCount) := by
          rintro ⟨rfl, h⟩
          exact hlow h
        simp [hp]
      · simp [Nat.le_of_not_lt hlow]

omit [DecidableEq T] in
theorem mergePairs_perm (priority : T → Int) :
    ∀ runs : List (List T), (mergePairs priority runs).flatten.Perm runs.flatten
  | [] => .refl _
  | [_] => .refl _
  | a :: b :: rest => by
    unfold mergePairs
    rw [List.flatten_cons, List.flatten_cons, List.flatten_cons, ← List.append_assoc]
    exact (List.merge_perm_append _).append (mergePairs_perm priority rest)

omit [DecidableEq T] in
theorem mergeSort_perm (priority : T → Int) (list : List T) :
    (mergeSort priority list).Perm list := by
  have hruns : ∀ fuel (runs : List (List T)), (mergeRuns priority fuel runs).Perm runs.flatten := by
    intro fuel
    induction fuel with
    | zero =>
      intro runs
      exact .refl _
    | succ fuel ih =>
      intro runs
      unfold mergeRuns
      split
      · exact .refl _
      · exact (ih _).trans (mergePairs_perm priority runs)
  have hflat : (list.map fun x => [x]).flatten = list := by
    induction list with
    | nil => rfl
    | cons x rest ih => simpa using ih
  have h := hruns list.length (list.map fun x => [x])
  rwa [hflat] at h

theorem count_filter_ite (p : T → Bool) (list : List T) (x : T) :
    (list.filter p).count x = if p x then list.count x else 0 := by
  cases h : p x with
  | true => rw [if_pos rfl, List.count_filter h]
  | false =>
    rw [if_neg (by simp), List.count_eq_zero]
    intro hx
    rw [List.mem_filter, h] at hx
    cases hx.2

/-- The elements of the first `n` bins. -/
theorem flatMap_bins_perm (priority : T → Int) (list : List T) :
    ∀ n ≤ binCount, ((List.range n).flatMap fun p =>
        (list.filter fun x => (priority x).toNat = p ∧ p < binCount).reverse).Perm
      (list.filter fun x => (priority x).toNat < n) := by
  intro n
  induction n with
  | zero =>
    intro _
    simp
  | succ n ih =>
    intro hn
    rw [List.range_succ, List.flatMap_append]
    refine ((ih (by omega)).append_right _).trans ?_
    rw [List.perm_iff_count]
    intro x
    simp only [List.flatMap_cons, List.flatMap_nil, List.append_nil, List.count_append,
      List.count_reverse, count_filter_ite, decide_eq_true_eq]
    rcases Nat.lt_trichotomy (priority x).toNat n with h | h | h
    · rw [if_pos h, if_neg (by omega), if_pos (by omega), Nat.add_zero]
    · rw [if_neg (by omega), if_pos (by omega), if_pos (by omega), Nat.zero_add]
    · rw [if_neg (by omega), if_neg (by omega), if_neg (by omega)]

/-- Every singleton on the active list is finalized once, whatever its priority. -/
theorem finalizeOrder_perm (r : Registry T) : (finalizeOrder r).Perm r.activeList := by
  unfold finalizeOrder
  rw [binSort_spec]
  simp only [List.append_nil]
  refine ((flatMap_bins_perm r.finalPriority r.activeList binCount (Nat.le_refl _)).append
    ((mergeSort_perm _ _).trans (List.reverse_perm _))).trans ?_
  rw [List.perm_iff_count]
  intro x
  simp only [List.count_append, count_filter_ite, decide_eq_true_eq]
  by_cases h : (r.finalPriority x).toNat < binCount
  · rw [if_pos h, if_neg (by simpa using h), Nat.add_zero]
  · rw [if_neg h, if_pos h, Nat.zero_add]

/-- A singleton in a bin comes before every one of a higher priority. -/
theorem idxOf_lt_of_bin {r : Registry T} {d u : T} (hd : d ∈ r.activeList)
    (hlow : (r.finalPriority d).toNat < binCount)
    (hlt : (r.finalPriority d).toNat < (r.finalPriority u).toNat) :
    (finalizeOrder r).idxOf d < (finalizeOrder r).idxOf u := by
  unfold finalizeOrder
  rw [binSort_spec]
  simp only [List.append_nil]
  -- the bins up to that of `d`
  have hsplit : List.range binCount = List.range ((r.finalPriority d).toNat + 1) ++
      (List.range (binCount - ((r.finalPriority d).toNat + 1))).map
        (((r.finalPriority d).toNat + 1) + ·) := by
    rw [← List.range_add]
    congr 1
    omega
  rw [hsplit, List.flatMap_append, List.append_assoc]
  have hperm := flatMap_bins_perm r.finalPriority r.activeList
    ((r.finalPriority d).toNat + 1) (by omega)
  have hdin := hperm.mem_iff.mpr (List.mem_filter.mpr ⟨hd, by simp⟩)
  have huout : u ∉ _ := fun hu => by
    have := (List.mem_filter.mp (hperm.mem_iff.mp hu)).2
    simp only [decide_eq_true_eq] at this
    omega
  rw [List.idxOf_append_of_mem hdin, List.idxOf_append_of_notMem huout]
  have := List.idxOf_lt_length_of_mem hdin
  omega

/-! ## First uses -/

/-- The registry between two first uses: the active list has the initialized singletons once, they
have initialized what they use, and their priority is one, or over that of each singleton used. -/
structure Registered (g : Singletons T) (r : Registry T) : Prop where
  nodup : r.activeList.Nodup
  mem : ∀ x, x ∈ r.activeList ↔ r.init x = true
  closed : ∀ x, r.init x = true → ∀ d ∈ g.uses x, r.init d = true
  leaf : ∀ x, r.init x = true → g.uses x = [] → r.finalPriority x = 1
  pos : ∀ x, r.init x = true → 1 ≤ r.finalPriority x
  above : ∀ x, r.init x = true → ∀ d ∈ g.uses x, r.finalPriority d < r.finalPriority x

section FirstUse

variable {g : Singletons T} {r r' : Registry T} {x : T}

omit [DecidableEq T] in
/-- Only the initialized singletons take part in the invariant. -/
theorem Registered.congr (h : Registered g r) (hinit : r'.init = r.init)
    (hactive : r'.activeList = r.activeList)
    (hprio : ∀ z, r.init z = true → r'.finalPriority z = r.finalPriority z) : Registered g r' := by
  refine ⟨?_, ?_, ?_, ?_, ?_, ?_⟩
  · rw [hactive]
    exact h.nodup
  · intro z
    rw [hactive, hinit]
    exact h.mem z
  · intro z hz d hd
    rw [hinit] at hz ⊢
    exact h.closed z hz d hd
  · intro z hz hu
    rw [hinit] at hz
    rw [hprio z hz]
    exact h.leaf z hz hu
  · intro z hz
    rw [hinit] at hz
    rw [hprio z hz]
    exact h.pos z hz
  · intro z hz d hd
    rw [hinit] at hz
    rw [hprio z hz, hprio d (h.closed z hz d hd)]
    exact h.above z hz d hd

theorem Registered.begin (h : Registered g r) (hx : r.init x = false) :
    Registered g (begin x r) := by
  refine h.congr ?_ ?_ ?_
  · rfl
  · rfl
  intro z hz
  apply Function.update_of_ne
  rintro rfl
  rw [hx] at hz
  cases hz

theorem updatePriority_of_ne {s z : T} (hz : z ≠ x) :
    (updatePriority x s r).finalPriority z = r.finalPriority z := by
  unfold updatePriority
  dsimp only
  split
  · exact Function.update_of_ne hz _ _
  · rfl

theorem updatePriority_self {s : T} :
    r.finalPriority s < (updatePriority x s r).finalPriority x ∧
      r.finalPriority x ≤ (updatePriority x s r).finalPriority x := by
  unfold updatePriority
  dsimp only
  split
  · rename_i hle
    rw [Function.update_self]
    omega
  · omega

/-- `x` in its `OnInitialize`, after it declared the singletons `done`. -/
structure Declaring (g : Singletons T) (x : T) (done : List T) (r : Registry T) : Prop where
  registered : Registered g r
  fresh : r.init x = false
  used : ∀ d ∈ done, r.init d = true ∧ r.finalPriority d < r.finalPriority x
  priority : done = [] ∧ r.finalPriority x = -1 ∨ done ≠ [] ∧ 2 ≤ r.finalPriority x

theorem Declaring.start (h : Registered g r) (hx : r.init x = false) :
    Declaring g x [] (begin x r) := by
  refine ⟨h.begin hx, hx, ?_, .inl ⟨rfl, Function.update_self _ _ _⟩⟩
  intro d hd
  cases hd

/-- What initializing `s` leaves alone. -/
structure Preserves (r r' : Registry T) (ok : T → Prop) : Prop where
  init : ∀ z, r.init z = true → r'.init z = true
  priority : ∀ z, r.init z = true → r'.finalPriority z = r.finalPriority z
  above : ∀ z, ok z → r'.init z = r.init z ∧ r'.finalPriority z = r.finalPriority z

omit [DecidableEq T] in
theorem Preserves.refl (r : Registry T) (ok : T → Prop) : Preserves r r ok :=
  ⟨fun _ h => h, fun _ _ => rfl, fun _ _ => ⟨rfl, rfl⟩⟩

omit [DecidableEq T] in
theorem Preserves.trans {r'' : Registry T} {ok : T → Prop} (h : Preserves r r' ok)
    (h' : Preserves r' r'' ok) : Preserves r r'' ok := by
  refine ⟨fun z hz => h'.init z (h.init z hz), ?_, ?_⟩
  · intro z hz
    rw [h'.priority z (h.init z hz), h.priority z hz]
  · intro z hz
    rw [(h'.above z hz).1, (h'.above z hz).2]
    exact h.above z hz

/-- One more `Use`: `s` is initialized and the priority of `x` rises above its own. -/
theorem Declaring.use {done : List T} {s : T} (h : Declaring g x done r) {r' : Registry T}
    (hr : Registered g r') (hs : r'.init s = true) (hp : Preserves r r' (· = x)) :
    Declaring g x (done ++ [s]) (updatePriority x s r') := by
  have hx : r'.init x = false := by
    rw [(hp.above x rfl).1]
    exact h.fresh
  have hne : ∀ z, r'.init z = true → z ≠ x := by
    rintro z hz rfl
    rw [hx] at hz
    cases hz
  obtain ⟨hlt, hle⟩ := updatePriority_self (x := x) (s := s) (r := r')
  have hsame := (hp.above x rfl).2
  refine ⟨?_, hx, ?_, ?_⟩
  · exact hr.congr rfl rfl fun z hz => updatePriority_of_ne (hne z hz)
  · intro d hd
    rcases List.mem_append.mp hd with hd | hd
    · obtain ⟨hinit, hbelow⟩ := h.used d hd
      have hinit' := hp.init d hinit
      refine ⟨hinit', ?_⟩
      rw [updatePriority_of_ne (hne d hinit'), hp.priority d hinit]
      omega
    · rw [List.mem_singleton] at hd
      subst hd
      refine ⟨hs, ?_⟩
      rw [updatePriority_of_ne (hne d hs)]
      exact hlt
  · right
    have := hr.pos s hs
    exact ⟨by simp, by omega⟩

theorem finish_of_ne {success : Bool} {z : T} (hz : z ≠ x) :
    (finish x success r).init z = r.init z ∧
      (finish x success r).finalPriority z = r.finalPriority z := by
  unfold finish
  refine ⟨Function.update_of_ne hz _ _, ?_⟩
  dsimp only
  split
  · exact Function.update_of_ne hz _ _
  · rfl

theorem Declaring.finish {success : Bool} (hloop : x ∉ g.uses x) (h : Declaring g x (g.uses x) r) :
    Registered g (finish x success r) := by
  have hr := h.registered
  have hxout : x ∉ r.activeList := fun hx => by
    rw [hr.mem, h.fresh] at hx
    cases hx
  have hinit : ∀ z, (Lang.finish x success r).init z = true ↔ z = x ∨ r.init z = true := by
    intro z
    by_cases hz : z = x
    · subst hz
      simp [Lang.finish]
    · rw [(finish_of_ne hz).1]
      simp [hz]
  have hself : (Lang.finish x success r).finalPriority x =
      if r.finalPriority x < 0 then 1 else r.finalPriority x := by
    unfold Lang.finish
    dsimp only
    split
    · exact Function.update_self _ _ _
    · rfl
  have hold : ∀ z, r.init z = true → (Lang.finish x success r).finalPriority z = r.finalPriority z := by
    intro z hz
    apply (finish_of_ne _).2
    rintro rfl
    rw [h.fresh] at hz
    cases hz
  refine ⟨?_, ?_, ?_, ?_, ?_, ?_⟩
  · exact List.nodup_cons.mpr ⟨hxout, hr.nodup⟩
  · intro z
    rw [hinit, ← hr.mem]
    exact List.mem_cons
  · intro z hz d hd
    rw [hinit] at hz ⊢
    right
    rcases hz with rfl | hz
    · exact (h.used d hd).1
    · exact hr.closed z hz d hd
  · intro z hz hu
    rw [hinit] at hz
    rcases hz with rfl | hz
    · rw [hself]
      rcases h.priority with ⟨-, hp⟩ | ⟨hne, -⟩
      · rw [hp]
        rfl
      · exact absurd hu hne
    · rw [hold z hz]
      exact hr.leaf z hz hu
  · intro z hz
    rw [hinit] at hz
    rcases hz with rfl | hz
    · rw [hself]
      have hp := h.priority
      split <;> omega
    · rw [hold z hz]
      exact hr.pos z hz
  · intro z hz d hd
    rw [hinit] at hz
    rcases hz with rfl | hz
    · obtain ⟨hdinit, hlt⟩ := h.used d hd
      have := hr.pos d hdinit
      rw [hold d hdinit, hself, if_neg (by omega)]
      exact hlt
    · rw [hold z hz, hold d (hr.closed z hz d hd)]
      exact hr.above z hz d hd

/-- A first use initializes the singleton and what is below it, and leaves alone the others. -/
theorem getRef_spec {rank : T → Nat} (hrank : ∀ u, ∀ d ∈ g.uses u, rank d < rank u) :
    ∀ fuel x r, rank x < fuel → Registered g r →
      Registered g (getRef g fuel x r) ∧ (getRef g fuel x r).init x = true ∧
        Preserves r (getRef g fuel x r) (fun z => rank x < rank z) := by
  intro fuel
  induction fuel with
  | zero =>
    intro x r hx
    exact absurd hx (Nat.not_lt_zero _)
  | succ fuel ih =>
    intro x r hx hr
    unfold getRef
    by_cases hinit : r.init x = true
    · rw [if_pos hinit]
      exact ⟨hr, hinit, Preserves.refl _ _⟩
    rw [if_neg hinit]
    have hfresh : r.init x = false := by simpa using hinit
    -- the declarations one by one
    have hfold : ∀ rest done r₁, Declaring g x done r₁ → (∀ d ∈ rest, d ∈ g.uses x) →
        Preserves r r₁ (fun z => rank x < rank z) →
        Declaring g x (done ++ rest)
            (rest.foldl (fun r s => updatePriority x s (getRef g fuel s r)) r₁) ∧
          Preserves r (rest.foldl (fun r s => updatePriority x s (getRef g fuel s r)) r₁)
            (fun z => rank x < rank z) := by
      intro rest
      induction rest with
      | nil =>
        intro done r₁ h _ hp
        rw [List.append_nil]
        exact ⟨h, hp⟩
      | cons s rest ihrest =>
        intro done r₁ h hsub hp
        have hlt := hrank x s (hsub s List.mem_cons_self)
        obtain ⟨hr₂, hs, hp₂⟩ := ih s r₁ (by omega) h.registered
        have hx₂ : Preserves r₁ (getRef g fuel s r₁) (· = x) :=
          ⟨hp₂.init, hp₂.priority, fun z hz => hp₂.above z (by rw [hz]; exact hlt)⟩
        have hdecl := h.use hr₂ hs hx₂
        have hp₃ : Preserves r (updatePriority x s (getRef g fuel s r₁))
            (fun z => rank x < rank z) := by
          have hp₂' := hp.trans ⟨hp₂.init, hp₂.priority, fun z hz => hp₂.above z (by omega)⟩
          refine ⟨hp₂'.init, ?_, ?_⟩
          · intro z hz
            rw [updatePriority_of_ne, hp₂'.priority z hz]
            rintro rfl
            rw [hfresh] at hz
            cases hz
          · intro z hz
            rw [updatePriority_of_ne (by rintro rfl; exact absurd hz (Nat.lt_irrefl _))]
            exact hp₂'.above z hz
        have := ihrest (done ++ [s]) _ hdecl (fun d hd => hsub d (List.mem_cons_of_mem _ hd)) hp₃
        rw [List.append_assoc] at this
        exact this
    have hstart : Preserves r (begin x r) (fun z => rank x < rank z) := by
      refine ⟨fun z hz => hz, ?_, ?_⟩
      · intro z hz
        apply Function.update_of_ne
        rintro rfl
        rw [hfresh] at hz
        cases hz
      · intro z hz
        refine ⟨rfl, Function.update_of_ne ?_ _ _⟩
        rintro rfl
        exact absurd hz (Nat.lt_irrefl _)
    obtain ⟨hdecl, hp⟩ := hfold (g.uses x) [] _ (Declaring.start hr hfresh) (fun d hd => hd) hstart
    rw [List.nil_append] at hdecl
    have hloop : x ∉ g.uses x := fun h => absurd (hrank x x h) (Nat.lt_irrefl _)
    refine ⟨hdecl.finish hloop, Function.update_self _ _ _, ?_, ?_, ?_⟩
    · intro z hz
      rw [(finish_of_ne (by rintro rfl; exact hinit hz)).1]
      exact hp.init z hz
    · intro z hz
      rw [(finish_of_ne (by rintro rfl; exact hinit hz)).2]
      exact hp.priority z hz
    · intro z hz
      have hne : z ≠ x := by
        rintro rfl
        exact absurd hz (Nat.lt_irrefl _)
      rw [(finish_of_ne hne).1, (finish_of_ne hne).2]
      exact hp.above z hz

omit [DecidableEq T] in
theorem registered_empty (g : Singletons T) : Registered g Registry.empty := by
  constructor
  case nodup => exact List.nodup_nil
  case mem =>
    intro x
    simp [Registry.empty]
  all_goals
    intro x hx
    cases hx

theorem registered_getRefs {rank : T → Nat} (hrank : ∀ u, ∀ d ∈ g.uses u, rank d < rank u)
    {fuel : Nat} (hfuel : ∀ x, rank x < fuel) (roots : List T) :
    Registered g (getRefs g fuel roots) := by
  have : ∀ (rest : List T) r, Registered g r →
      Registered g (rest.foldl (fun r x => getRef g fuel x r) r) := by
    intro rest
    induction rest with
    | nil =>
      intro r h
      exact h
    | cons x rest ih =>
      intro r h
      exact ih _ (getRef_spec hrank fuel x r (hfuel x) h).1
  exact this roots _ (registered_empty g)

end FirstUse

/-! ## The order -/

/-- How much a singleton depends on. -/
noncomputable def depth [Fintype T] (g : Singletons T) (x : T) : Nat :=
  (Set.toFinite {y | Relation.TransGen (fun u d => d ∈ g.uses u) x y}).toFinset.card

omit [DecidableEq T] in
theorem depth_lt [Fintype T] {g : Singletons T} (hacyc : Acyclic g) {u d : T} (h : d ∈ g.uses u) :
    depth g d < depth g u := by
  apply Finset.card_lt_card
  rw [Finset.ssubset_iff_of_subset]
  · refine ⟨d, ?_, ?_⟩
    · simpa using Relation.TransGen.single h
    · simpa using hacyc d
  · intro y hy
    simp only [Set.Finite.mem_toFinset, Set.mem_ofPred_eq] at hy ⊢
    exact Relation.TransGen.head h hy

omit [DecidableEq T] in
theorem depth_lt_card [Fintype T] {g : Singletons T} (hacyc : Acyclic g) (x : T) :
    depth g x < Fintype.card T := by
  rw [← Finset.card_univ]
  apply Finset.card_lt_card
  rw [Finset.ssubset_iff_of_subset (Finset.subset_univ _)]
  refine ⟨x, Finset.mem_univ _, ?_⟩
  simpa using hacyc x

omit [DecidableEq T] in
/-- Below a singleton that uses another there is one whose dependency uses nothing. -/
theorem Registered.exists_leaf {g : Singletons T} {r : Registry T} {rank : T → Nat}
    (h : Registered g r) (hrank : ∀ u, ∀ d ∈ g.uses u, rank d < rank u) :
    ∀ n u, rank u < n → r.init u = true → g.uses u ≠ [] →
      ∃ v d, r.init v = true ∧ d ∈ g.uses v ∧ g.uses d = [] := by
  intro n
  induction n with
  | zero =>
    intro u hu
    exact absurd hu (Nat.not_lt_zero _)
  | succ n ih =>
    intro u hu hinit hne
    obtain ⟨d, rest, huses⟩ := List.exists_cons_of_ne_nil hne
    have hd : d ∈ g.uses u := by
      rw [huses]
      exact List.mem_cons_self
    by_cases hleaf : g.uses d = []
    · exact ⟨u, d, hinit, hd, hleaf⟩
    · exact ih d (by have := hrank u d hd; omega) (h.closed u hinit d hd) hleaf

/-- The singletons are finalized in the promised order exactly if none of them uses another. -/
theorem ref_singletons_finalize [Fintype T] (g : Singletons T) (hacyc : Acyclic g)
    (roots : List T) :
    FinalizesUsersFirst g (getRefs g (Fintype.card T) roots) ↔
      ∀ u, (getRefs g (Fintype.card T) roots).init u = true → g.uses u = [] := by
  have hrank : ∀ u, ∀ d ∈ g.uses u, depth g d < depth g u := fun u d h => depth_lt hacyc h
  have h := registered_getRefs hrank (depth_lt_card hacyc) roots
  generalize getRefs g (Fintype.card T) roots = r at h ⊢
  have hperm := finalizeOrder_perm r
  have hmem : ∀ x, x ∈ finalizeOrder r ↔ r.init x = true := fun x => by
    rw [hperm.mem_iff, h.mem]
  constructor
  · intro hfin u hu
    by_contra hne
    obtain ⟨v, d, hv, hd, hleaf⟩ := h.exists_leaf hrank _ u (Nat.lt_succ_self _) hu hne
    have hdinit := h.closed v hv d hd
    have hone := h.leaf d hdinit hleaf
    have habove := h.above v hv d hd
    have hlt := idxOf_lt_of_bin (u := v) ((h.mem d).mpr hdinit)
      (by rw [hone]; decide) (by omega)
    have := hfin.before v ((hmem v).mpr hv) d hd
    omega
  · intro hnone
    refine ⟨hperm.nodup_iff.mpr h.nodup, hmem, ?_⟩
    intro u hu d hd
    rw [hnone u ((hmem u).mp hu)] at hd
    cases hd

/-- Three singletons that use nothing. -/
theorem ref_singletons_finalize_unrelated :
    FinalizesUsersFirst (⟨fun _ => [], fun _ => true⟩ : Singletons (Fin 3))
      (getRefs ⟨fun _ => [], fun _ => true⟩ (Fintype.card (Fin 3)) [1, 0, 2, 1]) := by
  refine (ref_singletons_finalize ⟨fun _ => [], fun _ => true⟩ ?_ [1, 0, 2, 1]).mpr
    (fun _ _ => rfl)
  intro x hx
  obtain ⟨y, hy, -⟩ := Relation.TransGen.head'_iff.mp hx
  cases hy

end Model

/-- A singleton `1` that uses the clock `0`, as the header's example: the clock is finalized first. -/
theorem not_finalizesUsersFirst :
    ¬ FinalizesUsersFirst (⟨fun x => if x = 1 then [0] else [], fun _ => true⟩ : Singletons (Fin 2))
      (getRefs ⟨fun x => if x = 1 then [0] else [], fun _ => true⟩ (Fintype.card (Fin 2)) [1]) := by
  intro h
  have hbefore := h.before 1 (by decide +kernel) 0 (by decide)
  revert hbefore
  decide +kernel

end Libcat.Lang
