import Libcat.Fec.ColumnWalk
import Libcat.Fec.NextPrime
import Libcat.Lib.Intrusive

/-!
# Peeling

The peeling solver of `Codec`: rows arrive one by one and are referenced from their columns, a row with
one unmarked column solves it, and the avalanche of a solved column goes through the rows that refer to
it. Columns and rows are numbers, a link is `none` where the source has `LIST_TERM`, and the tail of the
peeled list is the row that the pointer leads to. Of a reference list only the first `row_count` entries
are kept: the others are never read.
-/

namespace Libcat.Fec.Peeling

open ColumnWalk NextPrime Intrusive

section Model

def CAT_REF_LIST_MAX : Nat := 32

/-- `MarkTypes`. -/
inductive Mark where
  | MARK_TODO
  | MARK_PEEL
  | MARK_DEFER
  deriving DecidableEq, Repr

/-- `PeelRow`. The union is kept as the two columns of `unmarked`. -/
structure PeelRow extends Generators where
  next : Option Nat
  id : u32
  unmarked_count : Nat
  unmarked : Nat × Nat

/-- The union after peeling: the first column is the one that the row solves, -/
def PeelRow.peel_column (row : PeelRow) : Nat := row.unmarked.1

def PeelRow.setPeelColumn (row : PeelRow) (column_i : Nat) : PeelRow :=
  { row with unmarked := (column_i, row.unmarked.2) }

/-- and the low byte of the second one says whether it is copied. -/
def PeelRow.clearCopied (row : PeelRow) : PeelRow :=
  { row with unmarked := (row.unmarked.1, row.unmarked.2 / 0x100 * 0x100) }

/-- `PeelColumn`. The union is `w2_refs`, and the row that solves the column after peeling. -/
structure PeelColumn where
  next : Option Nat
  w2_refs : Nat
  mark : Mark

/-- What `ChooseMatrix` chooses. -/
structure CheckMatrix where
  block_count : Nat
  block_next_prime : Nat
  mix_count : Nat
  p_seed : u32
  min_le : 2 ≤ block_count
  le_max : block_count ≤ 64000
  next_prime : nextPrime16 0x10000 block_count = some block_next_prime

structure State where
  peel_rows : Nat → PeelRow
  peel_cols : Nat → PeelColumn
  peel_col_refs : Nat → List Nat
  peel_head_rows : Option Nat
  peel_tail_rows : Option Nat
  defer_head_rows : Option Nat
  defer_head_columns : Option Nat
  defer_count : Nat

namespace State

def setRow (s : State) (row_i : Nat) (row : PeelRow) : State :=
  { s with peel_rows := Function.update s.peel_rows row_i row }

def setColumn (s : State) (column_i : Nat) (column : PeelColumn) : State :=
  { s with peel_cols := Function.update s.peel_cols column_i column }

/-- `w2_refs++`. -/
def countW2 (s : State) (column_i : Nat) : State :=
  s.setColumn column_i
    { s.peel_cols column_i with w2_refs := ((s.peel_cols column_i).w2_refs + 1) % 0x10000 }

/-- Link a row at the head of the defer list. -/
def deferRow (s : State) (row_i : Nat) : State :=
  { s.setRow row_i { s.peel_rows row_i with next := s.defer_head_rows } with
    defer_head_rows := some row_i }

end State

/-- The columns that the loops over a row go through. -/
def CheckMatrix.columns (m : CheckMatrix) (row : Generators) : List Nat :=
  walk m.block_count m.block_next_prime row.peel_a row.peel_weight row.peel_x0

/-- `Peel` up to the avalanche: the marked column, and the row at the end of the peeled list. -/
def linkPeeled (row_i column_i : Nat) (s : State) : State :=
  let s := s.setColumn column_i { s.peel_cols column_i with mark := .MARK_PEEL }
  let s := s.setRow row_i ((s.peel_rows row_i).setPeelColumn column_i)
  let s :=
    match s.peel_tail_rows with
    | some tail => s.setRow tail { s.peel_rows tail with next := some row_i }
    | none => { s with peel_head_rows := some row_i }
  let s := s.setRow row_i { s.peel_rows row_i with next := none }
  let s := { s with peel_tail_rows := some row_i }
  s.setRow row_i (s.peel_rows row_i).clearCopied

/-- `Peel`, with the avalanche that it starts. -/
def peel (peelAvalanche : Nat → State → Option State) (row_i column_i : Nat) (s : State) :
    Option State := do
  let s ← peelAvalanche column_i (linkPeeled row_i column_i s)
  some (s.setColumn column_i { s.peel_cols column_i with w2_refs := row_i })

/-- The loop of `PeelAvalanche` that finds the unmarked columns again. A third one would be written
past `unmarked`: then there is no result. -/
def findUnmarked (ref_row_i : Nat) : List Nat → Nat → State → Option (Nat × State)
  | [], unmarked_count, s => some (unmarked_count, s)
  | column_i :: columns, unmarked_count, s =>
    if (s.peel_cols column_i).mark = .MARK_TODO then
      let row := s.peel_rows ref_row_i
      match unmarked_count with
      | 0 => findUnmarked ref_row_i columns 1
          ((s.setRow ref_row_i { row with unmarked := (column_i, row.unmarked.2) }).countW2 column_i)
      | 1 => findUnmarked ref_row_i columns 2
          ((s.setRow ref_row_i { row with unmarked := (row.unmarked.1, column_i) }).countW2 column_i)
      | _ => none
    else findUnmarked ref_row_i columns unmarked_count s

/-- The count of the row is one less, in 16 bits. -/
def countDown (ref_row_i : Nat) (s : State) : State :=
  s.setRow ref_row_i
    { s.peel_rows ref_row_i with
      unmarked_count := ((s.peel_rows ref_row_i).unmarked_count + 0xffff) % 0x10000 }

/-- `PeelAvalanche` for a row with a count of two. -/
def recountRow (m : CheckMatrix) (peelAvalanche : Nat → State → Option State) (ref_row_i : Nat)
    (s : State) : Option State := do
  let columns := m.columns (s.peel_rows ref_row_i).toGenerators
  let (unmarked_count, s) ← findUnmarked ref_row_i columns 0 s
  if unmarked_count ≤ 1 then
    let s := s.setRow ref_row_i { s.peel_rows ref_row_i with unmarked_count := 0 }
    if unmarked_count = 1 then
      peel peelAvalanche ref_row_i (s.peel_rows ref_row_i).unmarked.1 s
    else some (s.deferRow ref_row_i)
  else some s

/-- `PeelAvalanche` for one of the rows that refer to the column. -/
def avalancheRow (m : CheckMatrix) (peelAvalanche : Nat → State → Option State)
    (column_i : Nat) (s : State) (ref_row_i : Nat) : Option State :=
  let s := countDown ref_row_i s
  let ref_row := s.peel_rows ref_row_i
  if ref_row.unmarked_count = 1 then
    let new_column_i :=
      if ref_row.unmarked.1 = column_i then ref_row.unmarked.2 else ref_row.unmarked.1
    if (s.peel_cols new_column_i).mark = .MARK_TODO then peel peelAvalanche ref_row_i new_column_i s
    else some (s.deferRow ref_row_i)
  else if ref_row.unmarked_count = 2 then recountRow m peelAvalanche ref_row_i s
  else some s

/-- `PeelAvalanche`. -/
def peelAvalanche (m : CheckMatrix) : Nat → Nat → State → Option State
  | 0, _, _ => none
  | fuel + 1, column_i, s =>
    (s.peel_col_refs column_i).foldlM (avalancheRow m (peelAvalanche m fuel) column_i) s

/-- The local variables `unmarked_count` and `unmarked` of `OpportunisticPeeling`. -/
structure Unmarked where
  count : Nat
  columns : Nat × Nat

/-- `unmarked[unmarked_count++ & 1] = column_i`. -/
def Unmarked.add (u : Unmarked) (column_i : Nat) : Unmarked where
  count := u.count + 1
  columns := if u.count % 2 = 0 then (column_i, u.columns.2) else (u.columns.1, column_i)

/-- How the loop of `OpportunisticPeeling` ends: at a column with a full list, or after the last one. -/
inductive Referenced where
  | full (column_i : Nat) (refs : Nat → List Nat)
  | done (refs : Nat → List Nat) (unmarked : Unmarked)

/-- The loop over the columns of a new row. -/
def reference (peel_cols : Nat → PeelColumn) (row_i : Nat) :
    List Nat → (Nat → List Nat) → Unmarked → Referenced
  | [], refs, unmarked => .done refs unmarked
  | column_i :: columns, refs, unmarked =>
    if (refs column_i).length ≥ CAT_REF_LIST_MAX then .full column_i refs
    else reference peel_cols row_i columns
      (Function.update refs column_i (refs column_i ++ [row_i]))
      (if (peel_cols column_i).mark = .MARK_TODO then unmarked.add column_i else unmarked)

/-- `FixPeelFailure`: the walk again, from its first column until the failing one comes around. -/
def fixPeelFailure (m : CheckMatrix) (peel_a fail_column_i : Nat) :
    Nat → Nat → (Nat → List Nat) → Option (Nat → List Nat)
  | 0, _, _ => none
  | fuel + 1, column_i, refs =>
    if column_i = fail_column_i then some refs
    else fixPeelFailure m peel_a fail_column_i fuel
      (iterateNextColumn column_i m.block_count m.block_next_prime peel_a)
      (Function.update refs column_i (refs column_i).dropLast)

/-- The new row in its slot: `id` and the column generators. -/
def newRow (m : CheckMatrix) (id : u32) (row : PeelRow) : PeelRow :=
  { row with
    id := id
    toGenerators := generatePeelRow id m.p_seed m.block_count m.mix_count }

/-- The switch of `OpportunisticPeeling` over the count of unmarked columns. -/
def startRow (m : CheckMatrix) (fuel row_i : Nat) (unmarked : Unmarked) (s : State) : Option State :=
  let s := s.setRow row_i { s.peel_rows row_i with unmarked_count := unmarked.count }
  match unmarked.count with
  | 0 => some (s.deferRow row_i)
  | 1 => peel (peelAvalanche m fuel) row_i unmarked.columns.1 s
  | 2 =>
    let s := s.setRow row_i { s.peel_rows row_i with unmarked := unmarked.columns }
    some ((s.countW2 unmarked.columns.1).countW2 unmarked.columns.2)
  | _ => some s

/-- `OpportunisticPeeling`. -/
def opportunisticPeeling (m : CheckMatrix) (fuel row_i : Nat) (id : u32) (s : State) :
    Option (Bool × State) := do
  let row := newRow m id (s.peel_rows row_i)
  let s := s.setRow row_i row
  match reference s.peel_cols row_i (m.columns row.toGenerators) s.peel_col_refs ⟨0, 0, 0⟩ with
  | .full column_i refs =>
    let refs ← fixPeelFailure m row.peel_a column_i fuel row.peel_x0 refs
    some (false, { s with peel_col_refs := refs })
  | .done refs unmarked =>
    let s ← startRow m fuel row_i unmarked { s with peel_col_refs := refs }
    some (true, s)

/-- The best column so far, with its `w2_refs` and its `row_count`. -/
structure Best where
  best_column_i : Option Nat
  best_w2_refs : Nat
  best_row_count : Nat

/-- `GreedyPeeling` at one column. -/
def Best.consider (s : State) (best : Best) (column_i : Nat) : Best :=
  let column := s.peel_cols column_i
  let row_count := (s.peel_col_refs column_i).length
  if column.mark = .MARK_TODO ∧ column.w2_refs ≥ best.best_w2_refs ∧
      (column.w2_refs > best.best_w2_refs ∨ row_count ≥ best.best_row_count) then
    ⟨some column_i, column.w2_refs, row_count⟩
  else best

def bestColumn (m : CheckMatrix) (s : State) : Option Nat :=
  ((List.range m.block_count).foldl (Best.consider s) ⟨none, 0, 0⟩).best_column_i

/-- Mark a column as deferred and link it. -/
def deferColumn (s : State) (column_i : Nat) : State :=
  { s.setColumn column_i
      { s.peel_cols column_i with mark := .MARK_DEFER, next := s.defer_head_columns } with
    defer_head_columns := some column_i
    defer_count := s.defer_count + 1 }

/-- The loop of `GreedyPeeling`. -/
def greedyLoop (m : CheckMatrix) (fuel : Nat) : Nat → State → Option State
  | 0, _ => none
  | rounds + 1, s =>
    match bestColumn m s with
    | none => some s
    | some best_column_i => do
      let s ← peelAvalanche m fuel best_column_i (deferColumn s best_column_i)
      greedyLoop m fuel rounds s

/-- `GreedyPeeling`. -/
def greedyPeeling (m : CheckMatrix) (fuel : Nat) (s : State) : Option State :=
  greedyLoop m fuel fuel { s with defer_head_columns := none, defer_count := 0 }

inductive Result where
  | R_WIN
  | R_MORE_BLOCKS
  deriving DecidableEq, Repr

/-- The decoder: how many rows are stored, and what the peeling solver made of them. -/
structure Decoder where
  row_count : Nat
  all_original : Bool
  peeling : State

/-- `DecodeFeed`, without the block data. -/
def decodeFeed (m : CheckMatrix) (fuel : Nat) (id : u32) (d : Decoder) : Option (Result × Decoder) :=
  if d.row_count < m.block_count then do
    let all_original := if id.toNat ≥ m.block_count then false else d.all_original
    let (accepted, s) ← opportunisticPeeling m fuel d.row_count id d.peeling
    let row_count := if accepted then d.row_count + 1 else d.row_count
    some (if accepted ∧ row_count = m.block_count then .R_WIN else .R_MORE_BLOCKS,
      ⟨row_count, all_original, s⟩)
  else some (.R_WIN, d)

/-- The decoder after `InitializeDecoder`: rows are memory as it was. -/
def initializeDecoder (memory : Nat → PeelRow) (next : Nat → Option Nat) : Decoder where
  row_count := 0
  all_original := true
  peeling :=
    { peel_rows := memory
      peel_cols := fun column_i => ⟨next column_i, 0, .MARK_TODO⟩
      peel_col_refs := fun _ => []
      peel_head_rows := none
      peel_tail_rows := none
      defer_head_rows := none
      defer_head_columns := none
      defer_count := 0 }

end Model

end Libcat.Fec.Peeling
