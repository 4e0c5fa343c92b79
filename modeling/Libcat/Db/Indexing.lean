import Libcat.Lib.Run

/-!
# The index rebuild of a table

`StartIndexing` posts `NUM_PARALLEL_INDEX_READS` reads of the table file, `OnIndexingRead` inserts
the records of a page that was read into the indices on the update list and posts the next read, and
`OnIndexingDone` empties the list. A run is the order in which the outstanding reads complete.

`rebuild_iff` says for which files a rebuild does what it is for. Two things limit it.

- `data` is a pointer to 64-bit words that is advanced by a number of bytes: record `r` of a page is
  taken from byte `8 * r * recordBytes` of it (`dataAt`).
- `_index_read_offset` is advanced past a page when its read is posted, and again when a read
  completes: the page after the first three is not read.
-/

namespace Libcat.Db.Indexing

open Run

/-- `NUM_PARALLEL_INDEX_READS` -/
def numParallelIndexReads : Nat := 3

/-- A table file made of whole records. -/
structure TableFile where
  recordBytes : Nat
  recordBytes_pos : 0 < recordBytes
  records : List (List UInt8)
  whole : ∀ r ∈ records, r.length = recordBytes

namespace TableFile

variable (f : TableFile)

def getSize : Nat := f.records.flatten.length

/-- What a read delivers: less than it asks for at the end of the file, nothing beyond it. -/
def read (offset bytes : Nat) : List UInt8 := (f.records.flatten.drop offset).take bytes

end TableFile

/-- Insertion of a record into an index, and the end of the rebuild. The data of an insertion is
`none` where its bytes are not bytes that the read delivered. -/
inductive Event (ι : Type*) where
  | insertComplete (index : ι) (data : Option (List UInt8)) (offset : Nat)
  | onIndexingDone
deriving DecidableEq, Repr

/-- The fields of a table that a rebuild works on, and the offsets of the reads outstanding. -/
structure Table (ι : Type*) where
  headIndexUpdate : List ι
  indexReadCompleted : Nat
  indexReadOffset : Nat
  reads : List Nat
deriving Repr

variable {ι : Type*} (f : TableFile) (readSize : Nat)

/-- The data of record `r` of a page: `data` is a `u64 *`, so a step of `recordBytes` is that many
words. -/
def dataAt (page : List UInt8) (recordBytes r : Nat) : Option (List UInt8) :=
  if 8 * (r * recordBytes) + recordBytes ≤ page.length then
    some ((page.drop (8 * (r * recordBytes))).take recordBytes)
  else
    none

/-- The loop of `OnIndexingRead` over the records of a page. -/
def insertRecords (update : List ι) (page : List UInt8) (offset : Nat) : List (Event ι) :=
  (List.range (page.length / f.recordBytes)).flatMap fun r =>
    update.map fun index =>
      .insertComplete index (dataAt page f.recordBytes r) (offset + r * f.recordBytes)

def startIndexing (update : List ι) : Table ι × List (Event ι) :=
  if f.getSize = 0 then
    (⟨[], 0, 0, []⟩, [.onIndexingDone])
  else
    (⟨update, 0, numParallelIndexReads * readSize,
      (List.range numParallelIndexReads).map (· * readSize)⟩, [])

def onIndexingRead (t : Table ι) (offset : Nat) : Table ι × List (Event ι) :=
  let page := f.read offset readSize
  if page = [] then
    (t, [])
  else
    let inserted := insertRecords f t.headIndexUpdate page offset
    let completed := t.indexReadCompleted + page.length
    let nextReadOffset := t.indexReadOffset + readSize
    let t' := { t with indexReadCompleted := completed, indexReadOffset := nextReadOffset }
    if f.getSize ≤ completed then
      ({ t' with headIndexUpdate := [] }, inserted ++ [.onIndexingDone])
    else if f.getSize ≤ nextReadOffset then
      (t', inserted)
    else
      ({ t' with reads := t'.reads ++ [nextReadOffset] }, inserted)

/-- One of the outstanding reads completes. -/
def step (t : Table ι) (i : Nat) : Table ι × List (Event ι) :=
  match t.reads[i]? with
  | none => (t, [])
  | some offset => onIndexingRead f readSize { t with reads := t.reads.eraseIdx i } offset

/-- A rebuild: the table after it and what it did. -/
def rebuild (update : List ι) (order : List Nat) : Table ι × List (Event ι) :=
  let s := startIndexing f readSize update
  let r := exec (step f readSize) s.1 order
  (r.1, s.2 ++ r.2)

/-! ## Pages -/

theorem flatten_length_of_uniform {S : Nat} :
    ∀ {L : List (List UInt8)}, (∀ r ∈ L, r.length = S) → L.flatten.length = L.length * S
  | [], _ => by simp
  | r :: L, h => by
    have hr := h r (by simp)
    have ih := flatten_length_of_uniform (L := L) fun x hx => h x (List.mem_cons_of_mem _ hx)
    rw [List.flatten_cons, List.length_append, ih, hr, List.length_cons, Nat.succ_mul, Nat.add_comm]

theorem flatten_drop_take {S : Nat} :
    ∀ {L : List (List UInt8)}, (∀ r ∈ L, r.length = S) → ∀ j,
      (L.flatten.drop (j * S)).take S = L[j]?.getD []
  | [], _, j => by simp
  | r :: L, h, 0 => by
    have hr := h r (by simp)
    rw [Nat.zero_mul, List.drop_zero, List.flatten_cons, ← hr, List.take_left]
    simp
  | r :: L, h, j + 1 => by
    have hr := h r (by simp)
    have ih := flatten_drop_take (L := L) (fun x hx => h x (List.mem_cons_of_mem _ hx)) j
    rw [List.flatten_cons, show (j + 1) * S = r.length + j * S by rw [hr]; ring, List.drop_length_add_append,
      ih]
    simp

variable {f readSize}

namespace TableFile

theorem getSize_eq : f.getSize = f.records.length * f.recordBytes := flatten_length_of_uniform f.whole

theorem getSize_eq_zero : f.getSize = 0 ↔ f.records.length = 0 := by
  have := f.recordBytes_pos
  rw [getSize_eq]
  simp only [Nat.mul_eq_zero]
  omega

@[simp] theorem length_read (offset bytes : Nat) :
    (f.read offset bytes).length = min bytes (f.getSize - offset) := by
  simp [read, getSize]

theorem read_eq_nil {offset bytes : Nat} : f.read offset bytes = [] ↔ bytes = 0 ∨ f.getSize ≤ offset := by
  rw [← List.length_eq_zero_iff, length_read]
  omega

/-- The page of one record. -/
theorem read_record (j : Nat) : f.read (j * f.recordBytes) f.recordBytes = f.records[j]?.getD [] :=
  flatten_drop_take f.whole j

end TableFile

/-! ## Every rebuild comes to an end -/

/-- What completes is a read that is outstanding. -/
theorem step_of_lt {t : Table ι} {i : Nat} (hi : i < t.reads.length) :
    step f readSize t i = onIndexingRead f readSize { t with reads := t.reads.eraseIdx i } t.reads[i] := by
  simp [step, List.getElem?_eq_getElem hi]

theorem step_of_ge {t : Table ι} {i : Nat} (hi : t.reads.length ≤ i) :
    step f readSize t i = (t, []) := by
  simp [step, List.getElem?_eq_none hi]

/-- A completion takes a read away, or moves the offset on inside the file. -/
theorem onIndexingRead_measure (t : Table ι) (offset : Nat) :
    (onIndexingRead f readSize t offset).1.reads.length +
      (f.getSize - (onIndexingRead f readSize t offset).1.indexReadOffset) ≤
      t.reads.length + (f.getSize - t.indexReadOffset) := by
  unfold onIndexingRead
  simp only [TableFile.read_eq_nil]
  split
  · exact le_rfl
  · split
    · dsimp only
      omega
    · split
      · dsimp only
        omega
      · simp only [List.length_append, List.length_cons, List.length_nil]
        omega

theorem exists_order_from (n : Nat) : ∀ t : Table ι,
    t.reads.length + (f.getSize - t.indexReadOffset) ≤ n →
      ∃ order, (exec (step f readSize) t order).1.reads = [] := by
  induction n with
  | zero =>
    intro t h
    exact ⟨[], List.length_eq_zero_iff.mp (by simp only [exec_nil]; omega)⟩
  | succ n ih =>
    intro t h
    by_cases ht : t.reads.length = 0
    · exact ⟨[], List.length_eq_zero_iff.mp ht⟩
    · have hm := @onIndexingRead_measure _ f readSize
        { t with reads := t.reads.eraseIdx 0 } t.reads[0]
      have hl := List.length_eraseIdx_of_lt (l := t.reads) (i := 0) (by omega)
      rw [← step_of_lt (by omega)] at hm
      dsimp only at hm
      obtain ⟨order, ho⟩ := ih (step f readSize t 0).1 (by omega)
      exact ⟨0 :: order, ho⟩

theorem exists_order (update : List ι) : ∃ order, (rebuild f readSize update order).1.reads = [] :=
  exists_order_from _ _ le_rfl

/-! ## What is read -/

/-- A log entry of a read that was posted: the page after the first three is never asked for. -/
def FromPage (f : TableFile) (readSize : Nat) (e : Event ι) : Prop :=
  e = .onIndexingDone ∨ ∃ m ≠ numParallelIndexReads,
    ∃ r < (f.read (m * readSize) readSize).length / f.recordBytes, ∃ index,
      e = .insertComplete index (dataAt (f.read (m * readSize) readSize) f.recordBytes r)
        (m * readSize + r * f.recordBytes)

structure Posted (f : TableFile) (readSize : Nat) (t : Table ι) (log : List (Event ι)) : Prop where
  reads : ∀ o ∈ t.reads, ∃ m ≠ numParallelIndexReads, o = m * readSize
  next : ∃ m ≥ numParallelIndexReads, t.indexReadOffset = m * readSize
  log : ∀ e ∈ log, FromPage f readSize e

theorem mem_insertRecords {update : List ι} {page : List UInt8} {offset : Nat} {e : Event ι} :
    e ∈ insertRecords f update page offset ↔
      ∃ r < page.length / f.recordBytes, ∃ index ∈ update,
        e = .insertComplete index (dataAt page f.recordBytes r) (offset + r * f.recordBytes) := by
  simp only [insertRecords, List.mem_flatMap, List.mem_range, List.mem_map, eq_comm]

theorem Posted.step {t : Table ι} {log : List (Event ι)} (h : Posted f readSize t log) (i : Nat) :
    Posted f readSize (step f readSize t i).1 (log ++ (step f readSize t i).2) := by
  by_cases hi : i < t.reads.length
  swap
  · rw [step_of_ge (by omega), List.append_nil]
    exact h
  obtain ⟨m, hm, ho⟩ := h.reads _ (List.getElem_mem hi)
  have hreads : ∀ o ∈ t.reads.eraseIdx i, ∃ m ≠ numParallelIndexReads, o = m * readSize :=
    fun o ho => h.reads o (List.mem_of_mem_eraseIdx ho)
  have hrec : ∀ e ∈ insertRecords f t.headIndexUpdate (f.read (m * readSize) readSize) (m * readSize),
      FromPage f readSize e := by
    intro e he
    obtain ⟨r, hr, index, -, rfl⟩ := mem_insertRecords.mp he
    exact .inr ⟨m, hm, r, hr, index, rfl⟩
  obtain ⟨q, hq, hn⟩ := h.next
  have hnext : t.indexReadOffset + readSize = (q + 1) * readSize := by rw [hn, Nat.succ_mul]
  rw [step_of_lt hi, ho, onIndexingRead]
  dsimp only
  split
  · exact ⟨hreads, ⟨q, hq, hn⟩, by simpa using h.log⟩
  have hlog : ∀ e ∈ log ++ insertRecords f t.headIndexUpdate (f.read (m * readSize) readSize)
      (m * readSize), FromPage f readSize e := by
    intro e he
    rcases List.mem_append.mp he with he | he
    · exact h.log e he
    · exact hrec e he
  split
  · refine ⟨hreads, ⟨q + 1, by omega, hnext⟩, fun e he => ?_⟩
    rw [← List.append_assoc] at he
    rcases List.mem_append.mp he with he | he
    · exact hlog e he
    · exact .inl (List.mem_singleton.mp he)
  · split
    · exact ⟨hreads, ⟨q + 1, by omega, hnext⟩, hlog⟩
    · refine ⟨fun o ho => ?_, ⟨q + 1, by omega, hnext⟩, hlog⟩
      rcases List.mem_append.mp ho with ho | ho
      · exact hreads o ho
      · exact ⟨q + 1, by omega, by rw [List.mem_singleton.mp ho, hnext]⟩

theorem posted (hf : f.records.length ≠ 0) (update : List ι) (order : List Nat) :
    Posted f readSize (rebuild f readSize update order).1 (rebuild f readSize update order).2 := by
  have hsize : f.getSize ≠ 0 := fun h => hf (TableFile.getSize_eq_zero.mp h)
  refine exec_inv' (fun t log i h => h.step i) order _ _ ?_
  rw [startIndexing, if_neg hsize]
  refine ⟨fun o ho => ?_, ⟨_, le_rfl, rfl⟩, by simp⟩
  obtain ⟨m, hm, rfl⟩ := List.mem_map.mp ho
  exact ⟨m, (List.mem_range.mp hm).ne, rfl⟩

/-! ## What is delivered -/

/-- No page holds more than one record, and the first three reads reach the end of the file. -/
def Fits (f : TableFile) (readSize : Nat) : Prop :=
  f.records.length = 0 ∨ (f.records.length = 1 ∧ 0 < readSize) ∨
    (readSize = f.recordBytes ∧ f.records.length ≤ numParallelIndexReads)

instance : Decidable (Fits f readSize) := inferInstanceAs (Decidable (_ ∨ _))

/-- The first three pages are a record each, or empty. -/
structure Single (f : TableFile) (readSize : Nat) : Prop where
  pos : f.records.length ≠ 0
  few : f.records.length ≤ numParallelIndexReads
  reach : f.getSize ≤ numParallelIndexReads * readSize
  page : ∀ j, f.read (j * readSize) readSize = f.records[j]?.getD []
  offset : ∀ j < f.records.length, j * readSize = j * f.recordBytes

theorem Fits.single (h : Fits f readSize) (hR : f.recordBytes ∣ readSize)
    (h0 : f.records.length ≠ 0) : Single f readSize := by
  have hS := f.recordBytes_pos
  rcases h with h | ⟨h1, hpos⟩ | ⟨rfl, h3⟩
  · exact absurd h h0
  · have hsize : f.getSize = f.recordBytes := by rw [TableFile.getSize_eq, h1, Nat.one_mul]
    have hle : f.recordBytes ≤ readSize := Nat.le_of_dvd hpos hR
    refine ⟨h0, by simp [h1, numParallelIndexReads], ?_, fun j => ?_, fun j hj => ?_⟩
    · rw [hsize]
      exact hle.trans (Nat.le_mul_of_pos_left _ (by decide))
    · rcases j with _ | j
      · have h := TableFile.read_record (f := f) 0
        rw [Nat.zero_mul] at h ⊢
        rw [← h, TableFile.read, TableFile.read, List.drop_zero, List.take_of_length_le,
          List.take_of_length_le]
        · exact hsize.le
        · exact hsize.le.trans hle
      · rw [List.getElem?_eq_none (by omega)]
        refine TableFile.read_eq_nil.mpr (.inr ?_)
        rw [hsize]
        exact hle.trans (Nat.le_mul_of_pos_left _ (by omega))
    · obtain rfl : j = 0 := by omega
      simp
  · exact ⟨h0, h3, by rw [TableFile.getSize_eq]; exact Nat.mul_le_mul_right _ h3,
      TableFile.read_record, fun j _ => rfl⟩

/-- The log of the pages in the order they were read. -/
def pages (f : TableFile) (readSize : Nat) (update : List ι) (done : List Nat) : List (Event ι) :=
  done.flatMap fun j => insertRecords f update (f.read (j * readSize) readSize) (j * readSize)

theorem done_notMem_pages (update : List ι) (done : List Nat) :
    Event.onIndexingDone ∉ pages f readSize update done := by
  intro hm
  obtain ⟨j, -, hm⟩ := List.mem_flatMap.mp hm
  obtain ⟨_, _, _, _, he⟩ := mem_insertRecords.mp hm
  cases he

/-- How many of the pages hold a record. -/
def held (f : TableFile) (done : List Nat) : Nat := done.countP (· < f.records.length)

/-- The state of a rebuild: what is still to come and what was done, page by page. -/
structure Progress (f : TableFile) (readSize : Nat) (update : List ι) (t : Table ι)
    (log : List (Event ι)) (pend done : List Nat) : Prop where
  perm : (pend ++ done).Perm (List.range numParallelIndexReads)
  reads : t.reads = pend.map (· * readSize)
  completed : t.indexReadCompleted = held f done * f.recordBytes
  next : numParallelIndexReads * readSize ≤ t.indexReadOffset
  list : t.headIndexUpdate = if held f done = f.records.length then [] else update
  log : log = pages f readSize update done ++
    if held f done = f.records.length then [.onIndexingDone] else []

namespace Single

variable (h : Single f readSize)

include h

theorem filter_range : (List.range numParallelIndexReads).filter (· < f.records.length) =
    List.range f.records.length := by
  have hfew := h.few
  simp only [numParallelIndexReads] at hfew ⊢
  generalize f.records.length = n at hfew ⊢
  interval_cases n <;> rfl

theorem held_range : held f (List.range numParallelIndexReads) = f.records.length := by
  rw [held, List.countP_eq_length_filter, h.filter_range, List.length_range]

theorem page_eq_nil {j : Nat} : f.read (j * readSize) readSize = [] ↔ f.records.length ≤ j := by
  rw [h.page]
  constructor
  · intro hn
    by_contra hj
    have hj : j < f.records.length := by omega
    have hw := f.whole _ (List.getElem_mem hj)
    have hS := f.recordBytes_pos
    rw [List.getElem?_eq_getElem hj, Option.getD_some] at hn
    rw [hn] at hw
    simp only [List.length_nil] at hw
    omega
  · intro hj
    rw [List.getElem?_eq_none hj, Option.getD_none]

theorem length_page {j : Nat} (hj : j < f.records.length) :
    (f.read (j * readSize) readSize).length = f.recordBytes := by
  rw [h.page, List.getElem?_eq_getElem hj, Option.getD_some]
  exact f.whole _ (List.getElem_mem hj)

theorem insertRecords_page (update : List ι) {j : Nat} (hj : j < f.records.length) :
    insertRecords f update (f.read (j * readSize) readSize) (j * readSize) =
      update.map fun i => .insertComplete i f.records[j]? (j * f.recordBytes) := by
  have hl := h.length_page hj
  have hS := f.recordBytes_pos
  have hdata : dataAt (f.read (j * readSize) readSize) f.recordBytes 0 = f.records[j]? := by
    rw [dataAt, if_pos (by rw [hl]; omega), Nat.zero_mul, Nat.mul_zero, List.drop_zero,
      List.take_of_length_le hl.le, h.page, List.getElem?_eq_getElem hj, Option.getD_some]
  rw [insertRecords, hl, Nat.div_self hS]
  simp only [List.range_one, List.flatMap_cons, List.flatMap_nil, List.append_nil, hdata]
  rw [Nat.zero_mul, Nat.add_zero, h.offset j hj]

theorem insertRecords_empty (update : List ι) {j : Nat} (hj : f.records.length ≤ j) :
    insertRecords f update (f.read (j * readSize) readSize) (j * readSize) = [] := by
  rw [h.page_eq_nil.mpr hj, insertRecords]
  simp

theorem progress_step {update : List ι} {t : Table ι} {log : List (Event ι)} {pend done : List Nat}
    (hp : Progress f readSize update t log pend done) (i : Nat) :
    ∃ pend done, Progress f readSize update (step f readSize t i).1
      (log ++ (step f readSize t i).2) pend done := by
  by_cases hi : i < t.reads.length
  swap
  · rw [step_of_ge (by omega), List.append_nil]
    exact ⟨pend, done, hp⟩
  have hi' : i < pend.length := by simpa [hp.reads] using hi
  obtain ⟨j, hj⟩ : ∃ j, j = pend[i] := ⟨_, rfl⟩
  have ho : t.reads[i] = j * readSize := by simp [hp.reads, hj]
  have hpend : (j :: pend.eraseIdx i).Perm pend := hj ▸ List.getElem_cons_eraseIdx_perm hi'
  have hperm : (pend.eraseIdx i ++ (done ++ [j])).Perm (List.range numParallelIndexReads) := by
    refine List.Perm.trans ?_ hp.perm
    rw [← List.append_assoc]
    exact (List.perm_append_singleton _ _).trans (hpend.append_right done)
  have hheld : held f (done ++ [j]) = held f done + if j < f.records.length then 1 else 0 := by
    simp [held, List.countP_append, List.countP_cons]
  have hle : held f (done ++ [j]) ≤ f.records.length := by
    rw [← h.held_range, held, held, ← hperm.countP_eq, @List.countP_append _ _ (pend.eraseIdx i)]
    exact Nat.le_add_left _ _
  have hreads : t.reads.eraseIdx i = (pend.eraseIdx i).map (· * readSize) := by
    rw [hp.reads, List.eraseIdx_map]
  have hpages : pages f readSize update (done ++ [j]) = pages f readSize update done ++
      insertRecords f update (f.read (j * readSize) readSize) (j * readSize) := by
    simp [pages]
  refine ⟨pend.eraseIdx i, done ++ [j], ?_⟩
  rw [step_of_lt hi, ho, onIndexingRead]
  dsimp only
  by_cases hrec : j < f.records.length
  swap
  · -- beyond the end of the file
    rw [if_neg hrec, Nat.add_zero] at hheld
    rw [if_pos (h.page_eq_nil.mpr (by omega)), List.append_nil]
    refine ⟨hperm, hreads, by rw [hheld]; exact hp.completed, hp.next, by rw [hheld]; exact hp.list, ?_⟩
    rw [hheld, hpages, h.insertRecords_empty update (by omega), List.append_nil]
    exact hp.log
  rw [if_pos hrec] at hheld
  have hS := f.recordBytes_pos
  have hmore : held f done ≠ f.records.length := by omega
  have hupdate := hp.list
  have hlog := hp.log
  rw [if_neg hmore] at hupdate hlog
  rw [List.append_nil] at hlog
  have hcompleted : t.indexReadCompleted + (f.read (j * readSize) readSize).length =
      held f (done ++ [j]) * f.recordBytes := by
    rw [hp.completed, h.length_page hrec, hheld, Nat.succ_mul]
  have hnext : f.getSize ≤ t.indexReadOffset + readSize :=
    h.reach.trans (hp.next.trans (Nat.le_add_right _ _))
  have hdone : f.getSize ≤ held f (done ++ [j]) * f.recordBytes ↔
      held f (done ++ [j]) = f.records.length := by
    rw [TableFile.getSize_eq, Nat.mul_le_mul_right_iff hS]
    omega
  rw [if_neg (mt h.page_eq_nil.mp (by omega)), hcompleted, hupdate, hlog]
  by_cases hall : held f (done ++ [j]) = f.records.length
  · rw [if_pos (hdone.mpr hall)]
    refine ⟨hperm, hreads, rfl, hp.next.trans (Nat.le_add_right _ _), by rw [if_pos hall], ?_⟩
    rw [if_pos hall, hpages, List.append_assoc]
  · rw [if_neg (mt hdone.mp hall), if_pos hnext]
    refine ⟨hperm, hreads, rfl, hp.next.trans (Nat.le_add_right _ _), by rw [if_neg hall], ?_⟩
    rw [if_neg hall, hpages, List.append_nil]

theorem progress (update : List ι) (order : List Nat) :
    ∃ pend done, Progress f readSize update (rebuild f readSize update order).1
      (rebuild f readSize update order).2 pend done := by
  have hsize : f.getSize ≠ 0 := fun h0 => h.pos (TableFile.getSize_eq_zero.mp h0)
  refine @exec_inv' _ _ _ _ (fun t log => ∃ pend done, Progress f readSize update t log pend done)
    (fun t log i ⟨pend, done, hp⟩ => h.progress_step hp i) order _ _ ?_
  rw [startIndexing, if_neg hsize]
  refine ⟨List.range numParallelIndexReads, [], by simp, rfl, by simp [held], le_rfl, ?_, ?_⟩
  · rw [if_neg (by simp only [held, List.countP_nil]; exact h.pos.symm)]
  · rw [if_neg (by simp only [held, List.countP_nil]; exact h.pos.symm)]
    rfl

end Single

/-! ## What a rebuild is for -/

variable [DecidableEq ι]

/-- What a log inserts into one index. -/
def insertsOf (index : ι) : List (Event ι) → List (Option (List UInt8) × Nat) :=
  List.filterMap fun
    | .insertComplete i data offset => if i = index then some (data, offset) else none
    | .onIndexingDone => none

/-- Every record of the file with its own bytes and its own offset. -/
def entries (f : TableFile) : List (Option (List UInt8) × Nat) :=
  (List.range f.records.length).map fun j => (f.records[j]?, j * f.recordBytes)

/-- Every record went once into every index on the list, and nothing else did; `OnIndexingDone` was
called once, and last. -/
def Rebuilt (f : TableFile) (update : List ι) (log : List (Event ι)) : Prop :=
  ∃ l, log = l ++ [.onIndexingDone] ∧ Event.onIndexingDone ∉ l ∧
    ∀ index, (insertsOf index l).Perm (if index ∈ update then entries f else [])

/-! ## The log -/

theorem insertsOf_append (index : ι) (l l' : List (Event ι)) :
    insertsOf index (l ++ l') = insertsOf index l ++ insertsOf index l' := List.filterMap_append

@[simp] theorem insertsOf_nil (index : ι) : insertsOf index [] = [] := rfl

@[simp] theorem insertsOf_done (index : ι) : insertsOf index [.onIndexingDone] = [] := rfl

theorem mem_insertsOf {index : ι} {data : Option (List UInt8)} {offset : Nat} {l : List (Event ι)} :
    (data, offset) ∈ insertsOf index l ↔ .insertComplete index data offset ∈ l := by
  simp only [insertsOf, List.mem_filterMap]
  constructor
  · rintro ⟨e, he, h⟩
    cases e with
    | onIndexingDone => cases h
    | insertComplete i d o =>
      dsimp only at h
      split at h
      · next hi => cases h; cases hi; exact he
      · cases h
  · intro h
    exact ⟨_, h, by simp⟩

/-- One record into every index of the list. -/
theorem insertsOf_map {update : List ι} (hu : update.Nodup) (index : ι)
    (data : Option (List UInt8)) (offset : Nat) :
    insertsOf index (update.map fun i => Event.insertComplete i data offset) =
      if index ∈ update then [(data, offset)] else [] := by
  induction update with
  | nil => rfl
  | cons i update ih =>
    obtain ⟨hi, hu⟩ := List.nodup_cons.mp hu
    have ih := ih hu
    simp only [insertsOf] at ih
    by_cases h : i = index
    · subst h
      simp [insertsOf, ih, hi]
    · simp [insertsOf, ih, h, Ne.symm h]

theorem Rebuilt.perm {update : List ι} {log : List (Event ι)} (h : Rebuilt f update log) (index : ι) :
    (insertsOf index log).Perm (if index ∈ update then entries f else []) := by
  obtain ⟨l, rfl, -, h⟩ := h
  simpa [insertsOf_append] using h index

/-- In a finished rebuild every record was seen with its own bytes. -/
theorem Rebuilt.mem {update : List ι} {log : List (Event ι)} (h : Rebuilt f update log) {index : ι}
    (hi : index ∈ update) {j : Nat} (hj : j < f.records.length) :
    .insertComplete index f.records[j]? (j * f.recordBytes) ∈ log := by
  have hp := h.perm index
  rw [if_pos hi] at hp
  exact mem_insertsOf.mp (hp.mem_iff.mpr (List.mem_map.mpr ⟨j, List.mem_range.mpr hj, rfl⟩))

/-! ## What is not delivered -/

/-- A record that no read can deliver with its own bytes. -/
theorem not_rebuilt_of_missed {j : Nat} (hj : j < f.records.length)
    (hmiss : ∀ m ≠ numParallelIndexReads, ∀ r < (f.read (m * readSize) readSize).length / f.recordBytes,
      j * f.recordBytes = m * readSize + r * f.recordBytes →
        dataAt (f.read (m * readSize) readSize) f.recordBytes r = none)
    {update : List ι} (hu : update ≠ []) (order : List Nat) :
    ¬ Rebuilt f update (rebuild f readSize update order).2 := by
  intro h
  obtain ⟨index, hi⟩ := List.exists_mem_of_ne_nil update hu
  rcases (posted (by omega) update order).log _ (h.mem hi hj) with he | ⟨m, hm, r, hr, index', he⟩
  · cases he
  · injection he with _ hd ho
    rw [hmiss m hm r hr ho, List.getElem?_eq_getElem hj] at hd
    cases hd

theorem not_rebuilt (hR : f.recordBytes ∣ readSize) (hf : ¬ Fits f readSize) {update : List ι}
    (hu : update ≠ []) (order : List Nat) :
    ¬ Rebuilt f update (rebuild f readSize update order).2 := by
  obtain ⟨k, rfl⟩ := hR
  have hS := f.recordBytes_pos
  simp only [Fits, not_or, numParallelIndexReads] at hf
  obtain ⟨h0, h1, h3⟩ := hf
  have hlen : ∀ m r, r < (f.read (m * (f.recordBytes * k)) (f.recordBytes * k)).length / f.recordBytes →
      r < k := by
    intro m r hr
    rw [TableFile.length_read] at hr
    by_contra hk
    have := Nat.div_le_div_right (c := f.recordBytes) (min_le_left (f.recordBytes * k)
      (f.getSize - m * (f.recordBytes * k)))
    rw [Nat.mul_div_cancel_left _ hS] at this
    omega
  have hoff : ∀ j m r, j * f.recordBytes = m * (f.recordBytes * k) + r * f.recordBytes → j = m * k + r := by
    intro j m r h
    refine Nat.eq_of_mul_eq_mul_right hS ?_
    rw [h]
    ring
  -- nothing is read, the fourth page is not read, or the last record of the first page is not there
  rcases k with _ | _ | k
  · exact not_rebuilt_of_missed (j := 0) (by omega) (fun m _ r hr _ => absurd (hlen m r hr) (by omega)) hu order
  · refine not_rebuilt_of_missed (j := 3) ?_ (fun m hm r hr ho => ?_) hu order
    · by_contra h
      exact h3 ⟨by ring, by omega⟩
    · have := hoff _ _ _ ho
      have := hlen m r hr
      simp only [numParallelIndexReads] at hm
      omega
  · have hN : 2 ≤ f.records.length := by
      by_contra h
      exact h1 ⟨by omega, Nat.mul_pos hS (by omega)⟩
    refine not_rebuilt_of_missed (j := min (k + 1 + 1) f.records.length - 1) (by omega)
      (fun m _ r hr ho => ?_) hu order
    have hj := hoff _ _ _ ho
    have hm : m = 0 := by
      by_contra hm
      have : k + 1 + 1 ≤ m * (k + 1 + 1) := Nat.le_mul_of_pos_left _ (by omega)
      omega
    subst hm
    have hr : r + 1 = min (k + 1 + 1) f.records.length := by omega
    have hpage : (f.read (0 * (f.recordBytes * (k + 1 + 1))) (f.recordBytes * (k + 1 + 1))).length =
        (r + 1) * f.recordBytes := by
      rw [TableFile.length_read, TableFile.getSize_eq, hr, Nat.zero_mul, Nat.sub_zero, Nat.mul_comm,
        Nat.mul_min_mul_right]
    have hbig : f.recordBytes ≤ r * f.recordBytes := Nat.le_mul_of_pos_left _ (by omega)
    rw [dataAt, if_neg]
    rw [hpage, Nat.add_mul r 1, Nat.one_mul]
    omega

/-! ## The rebuild -/

namespace Single

variable (h : Single f readSize)

include h

theorem insertsOf_pages {update : List ι} (hu : update.Nodup) (index : ι) (done : List Nat) :
    insertsOf index (pages f readSize update done) =
      if index ∈ update then
        (done.filter (· < f.records.length)).map fun j => (f.records[j]?, j * f.recordBytes)
      else [] := by
  induction done with
  | nil => simp [pages]
  | cons j done ih =>
    have hcons : pages f readSize update (j :: done) =
        insertRecords f update (f.read (j * readSize) readSize) (j * readSize) ++
          pages f readSize update done := rfl
    rw [hcons, insertsOf_append, ih]
    by_cases hj : j < f.records.length
    · rw [h.insertRecords_page update hj, insertsOf_map hu, List.filter_cons_of_pos (by simpa using hj)]
      by_cases hi : index ∈ update <;> simp [hi]
    · rw [h.insertRecords_empty update (by omega), List.filter_cons_of_neg (by simpa using hj)]
      rfl

theorem rebuilt {update : List ι} (hu : update.Nodup) {order : List Nat}
    (hend : (rebuild f readSize update order).1.reads = []) :
    Rebuilt f update (rebuild f readSize update order).2 := by
  obtain ⟨pend, done, hp⟩ := h.progress update order
  have hpend : pend = [] := List.map_eq_nil_iff.mp (hp.reads.symm.trans hend)
  have hperm := hp.perm
  rw [hpend, List.nil_append] at hperm
  have hall : held f done = f.records.length := (hperm.countP_eq _).trans h.held_range
  have hlog := hp.log
  rw [if_pos hall] at hlog
  refine ⟨_, hlog, done_notMem_pages update done, fun index => ?_⟩
  rw [h.insertsOf_pages hu]
  by_cases hi : index ∈ update
  · rw [if_pos hi, if_pos hi, entries, ← h.filter_range]
    exact (hperm.filter _).map _
  · rw [if_neg hi, if_neg hi]

end Single

theorem rebuilt_of_empty (h0 : f.records.length = 0) (update : List ι) (order : List Nat) :
    Rebuilt f update (rebuild f readSize update order).2 := by
  have hidle : ∀ order, exec (step f readSize) (⟨[], 0, 0, []⟩ : Table ι) order = (⟨[], 0, 0, []⟩, []) := by
    intro order
    induction order with
    | nil => rfl
    | cons i order ih => simp [exec, step, ih]
  rw [rebuild, startIndexing, if_pos (TableFile.getSize_eq_zero.mpr h0), hidle]
  exact ⟨[], rfl, by simp, fun index => by simp [entries, h0]⟩

/-- A rebuild inserts every record once with its bytes and its offset, and ends once after the last,
whatever the order of completions, exactly for the files whose first three pages are single
records. -/
theorem rebuild_iff (f : TableFile) {readSize : Nat} (hR : f.recordBytes ∣ readSize) {update : List ι}
    (hu : update.Nodup) (hne : update ≠ []) :
    (∀ order, (rebuild f readSize update order).1.reads = [] →
      Rebuilt f update (rebuild f readSize update order).2) ↔ Fits f readSize := by
  constructor
  · intro h
    by_contra hf
    obtain ⟨order, ho⟩ := exists_order update
    exact not_rebuilt hR hf hne order (h order ho)
  · intro hf order hend
    by_cases h0 : f.records.length = 0
    · exact rebuilt_of_empty h0 update order
    · exact (hf.single hR h0).rebuilt hu hend

/-- Two records, as `Initialize` sets `_index_read_size` for eight bytes a record. -/
def twoRecords : TableFile where
  recordBytes := 8
  recordBytes_pos := by decide
  records := [[1, 0, 0, 0, 0, 0, 0, 0], [2, 0, 0, 0, 0, 0, 0, 0]]
  whole := by decide

theorem rebuild_iff_twoRecords :
    (∀ order, (rebuild twoRecords 32768 [0, 1] order).1.reads = [] →
      Rebuilt twoRecords [0, 1] (rebuild twoRecords 32768 [0, 1] order).2) ↔ Fits twoRecords 32768 :=
  rebuild_iff twoRecords (by decide) (by decide) (by decide)

/-- The second record is looked for 64 bytes into a page of 16. -/
theorem not_rebuild_always :
    ¬ ∀ (f : TableFile) (readSize : Nat), f.recordBytes ∣ readSize → ∀ update : List Nat, update.Nodup →
      ∀ order, (rebuild f readSize update order).1.reads = [] →
        Rebuilt f update (rebuild f readSize update order).2 := by
  intro h
  have hp := (h twoRecords 32768 (by decide) [0] (by decide) [0, 0, 0] (by decide)).perm 0
  revert hp
  decide

end Libcat.Db.Indexing
