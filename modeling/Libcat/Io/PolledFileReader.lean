import Mathlib.Tactic
import Libcat.Lib.Run

/-!
# The read-ahead file reader

`PolledFileReader` serves `Read` calls from the front half of a cache while one asynchronous read
fills the back half. A run is a list of events: the entry into a call, one pass of the loop of
`Read`, the completion of the outstanding read. Completions may come anywhere, also between the
passes of one call. A call that returns is logged with the buffer it filled and its `bytes_read`.

- `Window`: which part of the file each half of the cache holds or is asked for.
- `Faithful`: what the log of a run should say about the file.
- `Continues`: the guard. A pass that swaps the halves starts `bytes_read` anew, so nothing may have
  been copied in the same call before.
-/

namespace Libcat.Io.PolledFileReader

/-! ## The reader -/

/-- An outstanding `AsyncFile::Read`: where it reads, how much, and the half it fills. -/
inductive Request where
  /-- Both halves at once, completed by `OnFirstRead`. -/
  | first (bytes : Nat)
  /-- One half, completed by `OnRead`. -/
  | next (offset bytes : Nat) (half : Bool)
deriving DecidableEq, Repr

/-- A call of `Read` that is running: what is still asked for and what was copied. -/
structure Call where
  requested : Nat
  left : Nat
  buffer : List UInt8
deriving DecidableEq, Repr

/-- A call that returned. -/
structure Handed where
  requested : Nat
  buffer : List UInt8
  bytesRead : Nat
  result : Bool
deriving DecidableEq, Repr

structure Reader where
  cacheSize : Nat
  cache0 : List UInt8
  cache1 : List UInt8
  frontIndex : Bool
  frontBytes : Nat
  cacheOffset : Nat
  backDone : Bool
  frontDone : Bool
  backBytes : Nat
  offset : Nat
  pending : Option Request
  call : Option Call
deriving DecidableEq, Repr

def Reader.cache (s : Reader) (half : Bool) : List UInt8 :=
  if half then s.cache1 else s.cache0

/-- The reader after `Open`, with its first request made. `Open` does not set `_cache_front_done`. -/
def openFile (cacheSize : Nat) (cache0 cache1 : List UInt8) (frontDone : Bool) : Reader where
  cacheSize := cacheSize
  cache0 := cache0
  cache1 := cache1
  frontIndex := false
  frontBytes := 0
  cacheOffset := 0
  backDone := false
  frontDone := frontDone
  backBytes := 0
  offset := cacheSize * 2 % 2 ^ 32
  pending := some (.first (cacheSize * 2 % 2 ^ 32))
  call := none

inductive Event where
  | call (requested : Nat)
  /-- One pass of the loop; `accepted` is the answer of `AsyncFile::Read`, if the pass calls it. -/
  | pass (accepted : Bool)
  | complete
deriving DecidableEq, Repr

def frontRemaining (s : Reader) : Nat := (s.frontBytes + 2 ^ 32 - s.cacheOffset) % 2 ^ 32

/-- `Read` returns. -/
def finish (s : Reader) (c : Call) (bytesRead : Nat) (result : Bool) : Reader × List Handed :=
  ({ s with call := none }, [⟨c.requested, c.buffer, bytesRead, result⟩])

/-- The entry of `Read`. -/
def enter (s : Reader) (requested : Nat) : Reader × List Handed :=
  if s.frontDone then ({ s with call := some ⟨requested, requested, []⟩ }, [])
  else finish s ⟨requested, requested, []⟩ 0 true

/-- Copies `n` bytes off the front half. -/
def copyFront (s : Reader) (c : Call) (n : Nat) : Call :=
  ⟨c.requested, c.left - n, c.buffer ++ ((s.cache s.frontIndex).drop s.cacheOffset).take n⟩

def advance (s : Reader) (n : Nat) : Reader := { s with cacheOffset := s.cacheOffset + n }

/-- The back half's data becomes the front half's, before the buffers are swapped. -/
def promote (s : Reader) : Reader :=
  { s with
    frontBytes := s.backBytes
    backBytes := 0
    cacheOffset := 0
    backDone := false }

/-- `AsyncFile::Read` into the old front half, accepted; then the buffers are swapped. -/
def swapBuffers (s : Reader) : Reader :=
  { s with
    pending := some (.next s.offset s.cacheSize s.frontIndex)
    frontIndex := !s.frontIndex
    offset := (s.offset + s.cacheSize) % 2 ^ 64 }

/-- One pass of the loop of `Read`. -/
def readPass (s : Reader) (c : Call) (accepted : Bool) : Reader × List Handed :=
  let frontRead := min (frontRemaining s) c.left
  let c' := copyFront s c frontRead
  let s' := advance s frontRead
  if frontRead < frontRemaining s then finish s' c' frontRead true
  else if s.backDone = false then finish s' c' frontRead true
  else if s.backBytes = 0 then finish s' c' frontRead false
  else if accepted = true then ({ swapBuffers (promote s') with call := some c' }, [])
  else finish { promote s' with backDone := true, backBytes := 0 } c' frontRead true

/-- A half of the cache after `data` arrived in it. -/
def fill (old data : List UInt8) : List UInt8 := data ++ old.drop data.length

/-- `OnFirstRead` and `OnRead`, with the file's bytes at the offset asked for. -/
def onRead (file : List UInt8) (s : Reader) : Request → Reader
  | .first bytes =>
    let data := file.take bytes
    { s with
      cache0 := fill s.cache0 (data.take s.cacheSize)
      cache1 := fill s.cache1 (data.drop s.cacheSize)
      frontBytes := if s.cacheSize < data.length then s.cacheSize else data.length
      backBytes := if s.cacheSize < data.length then data.length - s.cacheSize else 0
      backDone := true
      frontDone := true
      pending := none }
  | .next offset bytes half =>
    let data := (file.drop offset).take bytes
    { s with
      cache0 := if half then s.cache0 else fill s.cache0 data
      cache1 := if half then fill s.cache1 data else s.cache1
      backBytes := data.length
      backDone := true
      pending := none }

/-- One event; an event that cannot happen in a state leaves it alone. -/
def step (file : List UInt8) (s : Reader) : Event → Reader × List Handed
  | .call requested => if s.call = none then enter s requested else (s, [])
  | .pass accepted => s.call.elim (s, []) fun c => readPass s c accepted
  | .complete => s.pending.elim (s, []) fun r => (onRead file s r, [])

/-! ## What a run should hand out -/

def Handed.bytes (h : Handed) : List UInt8 := h.buffer.take h.bytesRead

def handedOut (l : List Handed) : List UInt8 := (l.map Handed.bytes).flatten

/-- The calls of a run hand out a prefix of the file, none more than it was asked for, and one
returns false only when the whole file was handed out. -/
structure Faithful (file : List UInt8) (l : List Handed) : Prop where
  initial : handedOut l <+: file
  bounded : ∀ h ∈ l, h.bytesRead ≤ h.requested
  eof : ∀ k h, l[k]? = some h → h.result = false → handedOut (l.take (k + 1)) = file

/-- The pass swaps the two halves. -/
def Swaps (s : Reader) (c : Call) : Prop :=
  frontRemaining s ≤ c.left ∧ s.backDone = true ∧ s.backBytes ≠ 0

instance (s : Reader) (c : Call) : Decidable (Swaps s c) :=
  inferInstanceAs (Decidable (_ ∧ _))

/-- The guard of a run: a pass that swaps the halves is accepted by `AsyncFile::Read` and belongs to
a call that has copied nothing and finds nothing left in the front half. -/
def Continues (s : Reader) : Event → Prop
  | .pass accepted => ∀ c ∈ s.call, Swaps s c →
      accepted = true ∧ c.buffer = [] ∧ frontRemaining s = 0
  | _ => True

instance (s : Reader) : ∀ e, Decidable (Continues s e)
  | .pass _ => inferInstanceAs (Decidable (∀ c ∈ s.call, Swaps s c → _))
  | .call _ => .isTrue trivial
  | .complete => .isTrue trivial

@[simp] theorem handedOut_nil : handedOut [] = [] := rfl

theorem handedOut_concat (l : List Handed) (h : Handed) :
    handedOut (l ++ [h]) = handedOut l ++ h.bytes := by
  simp [handedOut]

theorem faithful_nil (file : List UInt8) : Faithful file [] := by
  refine ⟨List.nil_prefix, ?_, ?_⟩
  · intro h hh
    cases hh
  · intro k h hk
    simp at hk

/-- One more call that hands out the next `n` bytes. -/
theorem Faithful.concat {file : List UInt8} {l : List Handed} {h : Handed} {P n : Nat}
    (hl : Faithful file l) (hP : handedOut l = file.take P) (hbytes : h.bytes = (file.drop P).take n)
    (hle : h.bytesRead ≤ h.requested) (hfalse : h.result = false → file.length ≤ P + n) :
    Faithful file (l ++ [h]) ∧ handedOut (l ++ [h]) = file.take (P + n) := by
  have hout : handedOut (l ++ [h]) = file.take (P + n) := by
    rw [handedOut_concat, hP, hbytes, List.take_add]
  refine ⟨⟨?_, ?_, ?_⟩, hout⟩
  · rw [hout]
    exact List.take_prefix _ _
  · intro g hg
    rcases List.mem_append.mp hg with hg | hg
    · exact hl.bounded g hg
    · rw [List.mem_singleton.mp hg]
      exact hle
  · intro k g hk hg
    by_cases hlt : k < l.length
    · rw [List.getElem?_append_left hlt] at hk
      rw [List.take_append_of_le_length (by omega)]
      exact hl.eof k g hk hg
    · rw [List.getElem?_append_right (by omega)] at hk
      have hk0 : k - l.length = 0 := by
        by_contra hne
        rw [List.getElem?_eq_none (by simp only [List.length_singleton]; omega)] at hk
        cases hk
      rw [hk0, List.getElem?_cons_zero, Option.some.injEq] at hk
      subst hk
      rw [List.take_of_length_le (by simp only [List.length_append, List.length_singleton]; omega),
        hout]
      exact List.take_of_length_le (hfalse hg)

/-! ## The window on the file -/

/-- Before the first read completed. -/
structure Starting (s : Reader) (P : Nat) : Prop where
  position : P = 0
  frontIndex : s.frontIndex = false
  frontBytes : s.frontBytes = 0
  cacheOffset : s.cacheOffset = 0
  backDone : s.backDone = false
  offset : s.offset = s.cacheSize * 2
  pending : s.pending = some (.first (s.cacheSize * 2))

/-- The file position behind the front half. -/
def frontEnd (s : Reader) (P : Nat) : Nat := P + (s.frontBytes - s.cacheOffset)

/-- The halves once the first read completed: the front half holds the bytes from position `P` on,
the back half those behind them, or is asked for with the read at `o`. -/
structure Running (file : List UInt8) (s : Reader) (P o : Nat) : Prop where
  cacheOffset_le : s.cacheOffset ≤ s.frontBytes
  frontBytes_le : s.frontBytes ≤ s.cacheSize
  front : ((s.cache s.frontIndex).drop s.cacheOffset).take (s.frontBytes - s.cacheOffset) =
    (file.drop P).take (s.frontBytes - s.cacheOffset)
  frontEnd_le : frontEnd s P ≤ file.length
  aligned : o = frontEnd s P ∨ file.length ≤ frontEnd s P ∧ file.length ≤ o
  offset : s.offset = o + s.cacheSize
  offset_le : o ≤ file.length + s.cacheSize
  backBytes : s.backDone = true →
    s.backBytes = ((file.drop (frontEnd s P)).take s.cacheSize).length
  back : s.backDone = true → (s.cache (!s.frontIndex)).take s.backBytes =
    (file.drop (frontEnd s P)).take s.cacheSize
  pending : s.backDone = false → s.pending = some (.next o s.cacheSize (!s.frontIndex))
  idle : s.backDone = true → s.pending = none

def Window (file : List UInt8) (s : Reader) (P : Nat) : Prop :=
  Starting s P ∨ ∃ o, Running file s P o

/-- The invariant of guarded runs. -/
structure Inv (file : List UInt8) (cs : Nat) (s : Reader) (l : List Handed) : Prop where
  cacheSize : s.cacheSize = cs
  faithful : Faithful file l
  window : ∃ P, handedOut l = file.take P ∧ Window file s P
  fresh : ∀ c ∈ s.call, c.buffer = [] ∧ c.left = c.requested

section Steps

variable {file : List UInt8} {s : Reader} {P o : Nat}

theorem promote_advance (s : Reader) (n : Nat) : promote (advance s n) = promote s := rfl

theorem Window.cacheOffset_le (h : Window file s P) : s.cacheOffset ≤ s.frontBytes := by
  rcases h with h | ⟨o, h⟩
  · rw [h.cacheOffset]
    exact Nat.zero_le _
  · exact h.cacheOffset_le

theorem Window.frontRemaining_eq (h : Window file s P) (hcs : s.cacheSize * 2 < 2 ^ 32) :
    frontRemaining s = s.frontBytes - s.cacheOffset := by
  have hle := h.cacheOffset_le
  have hfront : s.frontBytes ≤ s.cacheSize := by
    rcases h with h | ⟨o, h⟩
    · rw [h.frontBytes]
      exact Nat.zero_le _
    · exact h.frontBytes_le
  unfold frontRemaining
  omega

/-- Neither the call in progress nor `_cache_front_done` takes part in the window. -/
theorem Window.setCall (h : Window file s P) (c : Option Call) :
    Window file { s with call := c } P := by
  rcases h with h | ⟨o, h⟩
  · exact .inl ⟨h.1, h.2, h.3, h.4, h.5, h.6, h.7⟩
  · exact .inr ⟨o, h.1, h.2, h.3, h.4, h.5, h.6, h.7, h.8, h.9, h.10, h.11⟩

/-- Taking `n` bytes off the front half. -/
theorem Window.advance (h : Window file s P) {n : Nat} (hn : n ≤ s.frontBytes - s.cacheOffset) :
    Window file (PolledFileReader.advance s n) (P + n) := by
  rcases h with h | ⟨o, h⟩
  · have hz : n = 0 := by
      rw [h.frontBytes, Nat.zero_sub] at hn
      exact Nat.le_zero.mp hn
    subst hz
    exact .inl ⟨h.1, h.2, h.3, h.4, h.5, h.6, h.7⟩
  · have hle := h.cacheOffset_le
    have hend : frontEnd (PolledFileReader.advance s n) (P + n) = frontEnd s P := by
      show P + n + (s.frontBytes - (s.cacheOffset + n)) = P + (s.frontBytes - s.cacheOffset)
      omega
    refine .inr ⟨o, ?_, h.frontBytes_le, ?_, ?_, ?_, h.offset, h.offset_le, ?_, ?_, h.pending,
      h.idle⟩
    · show s.cacheOffset + n ≤ s.frontBytes
      omega
    · show ((s.cache s.frontIndex).drop (s.cacheOffset + n)).take
        (s.frontBytes - (s.cacheOffset + n)) = _
      have := congrArg (List.drop n) h.front
      rw [List.drop_take, List.drop_take, List.drop_drop, List.drop_drop] at this
      show _ = (file.drop (P + n)).take (s.frontBytes - (s.cacheOffset + n))
      rw [← Nat.sub_sub]
      exact this
    · rw [hend]
      exact h.frontEnd_le
    · rw [hend]
      exact h.aligned
    · rw [hend]
      exact h.backBytes
    · rw [hend]
      exact h.back

/-- What a pass copies off the front half. -/
theorem Window.copied (h : Window file s P) {n : Nat} (hn : n ≤ s.frontBytes - s.cacheOffset) :
    ((s.cache s.frontIndex).drop s.cacheOffset).take n = (file.drop P).take n := by
  rcases h with h | ⟨o, h⟩
  · have hz : n = 0 := by
      rw [h.frontBytes, Nat.zero_sub] at hn
      exact Nat.le_zero.mp hn
    rw [hz, List.take_zero, List.take_zero]
  · have := congrArg (List.take n) h.front
    rwa [List.take_take, List.take_take, Nat.min_eq_left hn] at this

/-- With the front half used up, the back half becomes the front one and is asked for anew. -/
theorem Running.swap (h : Running file s P o) (hdone : s.backDone = true) (hne : s.backBytes ≠ 0)
    (hzero : s.frontBytes - s.cacheOffset = 0) (hfile : file.length + 2 * s.cacheSize < 2 ^ 64) :
    Running file (swapBuffers (promote s)) P s.offset := by
  have hend : frontEnd s P = P := by
    unfold frontEnd
    omega
  have hbb := h.backBytes hdone
  have hback := h.back hdone
  have hal := h.aligned
  have hoff := h.offset
  rw [hend] at hbb hback hal
  have hlen : s.backBytes = min s.cacheSize (file.length - P) := by
    rw [hbb, List.length_take, List.length_drop]
  refine ⟨Nat.zero_le _, ?_, ?_, ?_, ?_, ?_, ?_, ?_, ?_, ?_, ?_⟩
  · show s.backBytes ≤ s.cacheSize
    omega
  · show ((s.cache (!s.frontIndex)).drop 0).take (s.backBytes - 0) =
      (file.drop P).take (s.backBytes - 0)
    rw [List.drop_zero, Nat.sub_zero, hback, hlen, List.take_eq_take_min, List.length_drop]
  · show P + (s.backBytes - 0) ≤ file.length
    omega
  · show s.offset = P + (s.backBytes - 0) ∨ file.length ≤ P + (s.backBytes - 0) ∧ file.length ≤ s.offset
    omega
  · show (s.offset + s.cacheSize) % 2 ^ 64 = s.offset + s.cacheSize
    apply Nat.mod_eq_of_lt
    omega
  · show s.offset ≤ file.length + s.cacheSize
    omega
  · intro hd
    cases hd
  · intro hd
    cases hd
  · intro _
    show some (Request.next s.offset s.cacheSize s.frontIndex) =
      some (Request.next s.offset s.cacheSize (!!s.frontIndex))
    rw [Bool.not_not]
  · intro hd
    cases hd

theorem take_fill (old data : List UInt8) : (fill old data).take data.length = data := by
  unfold fill
  rw [List.take_append_of_le_length le_rfl, List.take_length]

theorem Starting.complete (h : Starting s P) (hcs : s.cacheSize * 2 < 2 ^ 32) :
    Running file (onRead file s (.first (s.cacheSize * 2))) P s.cacheSize := by
  have hdata : (file.take (s.cacheSize * 2)).take s.cacheSize = file.take s.cacheSize := by
    rw [List.take_take, Nat.min_eq_left (by omega)]
  have hrest : (file.take (s.cacheSize * 2)).drop s.cacheSize =
      (file.drop s.cacheSize).take s.cacheSize := by
    rw [List.drop_take, Nat.mul_two, Nat.add_sub_cancel]
  have hlen : (file.take (s.cacheSize * 2)).length = min (s.cacheSize * 2) file.length :=
    List.length_take
  have hfb : (onRead file s (.first (s.cacheSize * 2))).frontBytes =
      min s.cacheSize file.length := by
    simp only [onRead, hlen]
    split <;> omega
  have hbb : (onRead file s (.first (s.cacheSize * 2))).backBytes =
      min s.cacheSize (file.length - s.cacheSize) := by
    simp only [onRead, hlen]
    split <;> omega
  have hco : (onRead file s (.first (s.cacheSize * 2))).cacheOffset = 0 := h.cacheOffset
  have hfi : (onRead file s (.first (s.cacheSize * 2))).frontIndex = false := h.frontIndex
  have hsz : (onRead file s (.first (s.cacheSize * 2))).cacheSize = s.cacheSize := rfl
  have hend : frontEnd (onRead file s (.first (s.cacheSize * 2))) P =
      min s.cacheSize file.length := by
    unfold frontEnd
    rw [hfb, hco, h.position]
    omega
  have hc0 : (onRead file s (.first (s.cacheSize * 2))).cache false =
      fill s.cache0 (file.take s.cacheSize) := by
    simp [Reader.cache, onRead, hdata]
  have hc1 : (onRead file s (.first (s.cacheSize * 2))).cache true =
      fill s.cache1 ((file.drop s.cacheSize).take s.cacheSize) := by
    simp [Reader.cache, onRead, hrest]
  -- the bytes behind the front half are those of the second half of the first read
  have hbehind : file.drop (min s.cacheSize file.length) = file.drop s.cacheSize := by
    by_cases hle : s.cacheSize ≤ file.length
    · rw [Nat.min_eq_left hle]
    · rw [Nat.min_eq_right (by omega), List.drop_length, List.drop_eq_nil_of_le (by omega)]
  constructor
  case cacheOffset_le =>
    rw [hco]
    exact Nat.zero_le _
  case frontBytes_le =>
    rw [hfb, hsz]
    exact Nat.min_le_left _ _
  case front =>
    have := take_fill s.cache0 (file.take s.cacheSize)
    rw [List.length_take] at this
    rw [hfi, hc0, hco, hfb, h.position, List.drop_zero, List.drop_zero, Nat.sub_zero, this,
      List.take_eq_take_min]
  case frontEnd_le =>
    rw [hend]
    exact Nat.min_le_right _ _
  case aligned =>
    rw [hend]
    omega
  case offset =>
    show s.offset = s.cacheSize + s.cacheSize
    rw [h.offset]
    omega
  case offset_le =>
    rw [hsz]
    exact Nat.le_add_left _ _
  case backBytes =>
    intro _
    rw [hend, hbehind, hbb, hsz, List.length_take, List.length_drop]
  case back =>
    intro _
    have := take_fill s.cache1 ((file.drop s.cacheSize).take s.cacheSize)
    rw [List.length_take, List.length_drop] at this
    rw [hend, hbehind, hfi, Bool.not_false, hc1, hbb, hsz, this]
  case pending =>
    intro hd
    cases hd
  case idle =>
    intro _
    rfl

theorem Running.complete (h : Running file s P o) :
    Running file (onRead file s (.next o s.cacheSize (!s.frontIndex))) P o := by
  have hdata : (file.drop o).take s.cacheSize = (file.drop (frontEnd s P)).take s.cacheSize := by
    rcases h.aligned with heq | ⟨h₁, h₂⟩
    · rw [heq]
    · rw [List.drop_eq_nil_of_le h₁, List.drop_eq_nil_of_le h₂]
  have hfront : (onRead file s (.next o s.cacheSize (!s.frontIndex))).cache s.frontIndex =
      s.cache s.frontIndex := by
    cases hfi : s.frontIndex <;> simp [Reader.cache, onRead, hfi]
  have hback : (onRead file s (.next o s.cacheSize (!s.frontIndex))).cache (!s.frontIndex) =
      fill (s.cache (!s.frontIndex)) ((file.drop o).take s.cacheSize) := by
    cases hfi : s.frontIndex <;> simp [Reader.cache, onRead, hfi]
  refine ⟨h.cacheOffset_le, h.frontBytes_le, ?_, h.frontEnd_le, h.aligned, h.offset, h.offset_le,
    ?_, ?_, ?_, ?_⟩
  · show (((onRead file s (.next o s.cacheSize (!s.frontIndex))).cache s.frontIndex).drop _).take _ = _
    rw [hfront]
    exact h.front
  · intro _
    show ((file.drop o).take s.cacheSize).length = _
    rw [hdata]
    rfl
  · intro _
    show ((onRead file s (.next o s.cacheSize (!s.frontIndex))).cache (!s.frontIndex)).take
      ((file.drop o).take s.cacheSize).length = _
    rw [hback, take_fill, hdata]
    rfl
  · intro hd
    cases hd
  · intro _
    rfl

end Steps

section Run

variable {file : List UInt8} {cs : Nat} {s : Reader} {l : List Handed}

/-- A call that returns with the next `n` bytes. -/
theorem Inv.finish {t : Reader} {c : Call} {P n : Nat} {result : Bool} (h : Inv file cs s l)
    (hsize : t.cacheSize = cs) (hP : handedOut l = file.take P) (hw : Window file t (P + n))
    (hbuf : c.buffer = (file.drop P).take n) (hle : n ≤ c.requested)
    (hfalse : result = false → file.length ≤ P + n) :
    Inv file cs (finish t c n result).1 (l ++ (PolledFileReader.finish t c n result).2) := by
  have hbytes : (⟨c.requested, c.buffer, n, result⟩ : Handed).bytes = (file.drop P).take n := by
    show c.buffer.take n = _
    rw [hbuf, List.take_take, Nat.min_self]
  obtain ⟨hf, hout⟩ := h.faithful.concat hP hbytes hle hfalse
  refine ⟨hsize, hf, ⟨P + n, hout, hw.setCall none⟩, ?_⟩
  intro c hc
  cases hc

theorem Inv.enter (h : Inv file cs s l) (requested : Nat) :
    Inv file cs (enter s requested).1 (l ++ (PolledFileReader.enter s requested).2) := by
  obtain ⟨P, hP, hw⟩ := h.window
  unfold PolledFileReader.enter
  by_cases hd : s.frontDone
  · rw [if_pos hd, List.append_nil]
    refine ⟨h.cacheSize, h.faithful, ⟨P, hP, hw.setCall _⟩, ?_⟩
    intro c hc
    cases hc
    exact ⟨rfl, rfl⟩
  · rw [if_neg hd]
    exact h.finish h.cacheSize hP hw (by simp) (Nat.zero_le _) (by simp)

/-- A pass that returns after it copied `n` bytes off the front half. -/
theorem Inv.returns (h : Inv file cs s l) {c : Call} (hc : s.call = some c) {P n : Nat}
    (hP : handedOut l = file.take P) (hw : Window file s P) (hn : n ≤ s.frontBytes - s.cacheOffset)
    (hle : n ≤ c.left) {result : Bool} (hfalse : result = false → file.length ≤ P + n) :
    Inv file cs (PolledFileReader.finish (advance s n) (copyFront s c n) n result).1
      (l ++ (PolledFileReader.finish (advance s n) (copyFront s c n) n result).2) := by
  obtain ⟨hbuf, hleft⟩ := h.fresh c hc
  have hcopied : (copyFront s c n).buffer = (file.drop P).take n := by
    unfold copyFront
    rw [hbuf, List.nil_append]
    exact hw.copied hn
  have hreq : n ≤ (copyFront s c n).requested := by
    show n ≤ c.requested
    rw [← hleft]
    exact hle
  exact h.finish (t := advance s n) h.cacheSize hP (hw.advance hn) hcopied hreq hfalse

/-- A pass that swaps the halves, in a call that has copied nothing. -/
theorem Inv.swapped (h : Inv file cs s l) (hfile : file.length + 2 * cs < 2 ^ 64) {P o : Nat}
    (hP : handedOut l = file.take P) (hrun : Running file s P o) (hdone : s.backDone = true)
    (hne : s.backBytes ≠ 0) (hzero : s.frontBytes - s.cacheOffset = 0) {c : Call}
    (hbuf : c.buffer = []) (hleft : c.left = c.requested) :
    Inv file cs { swapBuffers (promote s) with call := some c } l := by
  have hsize := h.cacheSize
  have hswap : Window file (swapBuffers (promote s)) P :=
    .inr ⟨s.offset, hrun.swap hdone hne hzero (by rw [hsize]; exact hfile)⟩
  refine ⟨hsize, h.faithful, ⟨P, hP, hswap.setCall _⟩, ?_⟩
  intro c' hc'
  cases hc'
  exact ⟨hbuf, hleft⟩

theorem Inv.readPass (h : Inv file cs s l) (hpos : 0 < cs) (hcs : cs * 2 < 2 ^ 32)
    (hfile : file.length + 2 * cs < 2 ^ 64) {c : Call} (hc : s.call = some c) {accepted : Bool}
    (hok : Swaps s c → accepted = true ∧ c.buffer = [] ∧ frontRemaining s = 0)
    {r : Reader × List Handed} (hr : PolledFileReader.readPass s c accepted = r) :
    Inv file cs r.1 (l ++ r.2) := by
  obtain ⟨P, hP, hw⟩ := h.window
  obtain ⟨hbuf, hleft⟩ := h.fresh c hc
  have hsize := h.cacheSize
  have hrem := hw.frontRemaining_eq (by rw [hsize]; exact hcs)
  have hn : min (frontRemaining s) c.left ≤ s.frontBytes - s.cacheOffset := by
    rw [← hrem]
    exact Nat.min_le_left _ _
  have hle := Nat.min_le_right (frontRemaining s) c.left
  unfold PolledFileReader.readPass at hr
  dsimp only at hr
  split at hr
  · subst hr
    exact h.returns hc hP hw hn hle (by simp)
  split at hr
  · subst hr
    exact h.returns hc hP hw hn hle (by simp)
  rename_i hmore hdone
  have hdone' : s.backDone = true := by simpa using hdone
  obtain ⟨o, hrun⟩ : ∃ o, Running file s P o := by
    rcases hw with hw | hw
    · rw [hw.backDone] at hdone'
      cases hdone'
    · exact hw
  split at hr
  · -- the end of the file: nothing is left in either half
    rename_i hzero
    subst hr
    refine h.returns hc hP hw hn hle ?_
    intro _
    have hbb := hrun.backBytes hdone'
    rw [hzero, List.length_take, List.length_drop, hsize] at hbb
    unfold frontEnd at hbb
    omega
  · rename_i hne
    obtain ⟨hacc, -, hz⟩ := hok ⟨by omega, hdone', hne⟩
    rw [if_pos hacc, promote_advance, hz, Nat.zero_min] at hr
    subst hr
    rw [List.append_nil]
    have hzero : s.frontBytes - s.cacheOffset = 0 := hrem.symm.trans hz
    have hbuf' : (copyFront s c 0).buffer = [] := by
      simp [copyFront, hbuf]
    have hleft' : (copyFront s c 0).left = (copyFront s c 0).requested := hleft
    exact h.swapped hfile hP hrun hdone' hne hzero hbuf' hleft'

theorem Inv.complete (h : Inv file cs s l) (hcs : cs * 2 < 2 ^ 32) {r : Request}
    (hr : s.pending = some r) : Inv file cs (onRead file s r) l := by
  obtain ⟨P, hP, hw⟩ := h.window
  have hsize := h.cacheSize
  have hw' : Window file (onRead file s r) P := by
    rcases hw with hw | ⟨o, hw⟩
    · have hreq := hw.pending
      rw [hr, Option.some.injEq] at hreq
      subst hreq
      exact .inr ⟨_, hw.complete (by rw [hsize]; exact hcs)⟩
    · have hd : s.backDone = false := by
        by_contra hd
        have hidle := hw.idle (by simpa using hd)
        rw [hr] at hidle
        cases hidle
      have hreq := hw.pending hd
      rw [hr, Option.some.injEq] at hreq
      subst hreq
      exact .inr ⟨o, hw.complete⟩
  have hcall : (onRead file s r).call = s.call := by
    cases r <;> rfl
  have hsize' : (onRead file s r).cacheSize = s.cacheSize := by
    cases r <;> rfl
  refine ⟨by rw [hsize', hsize], h.faithful, ⟨P, hP, hw'⟩, ?_⟩
  rw [hcall]
  exact h.fresh

theorem step_pass {c : Call} (hc : s.call = some c) (accepted : Bool) :
    step file s (.pass accepted) = readPass s c accepted := by
  show s.call.elim (s, []) (fun c => readPass s c accepted) = _
  rw [hc, Option.elim_some]

theorem step_complete {r : Request} (hr : s.pending = some r) :
    step file s .complete = (onRead file s r, []) := by
  show s.pending.elim (s, []) (fun r => (onRead file s r, [])) = _
  rw [hr, Option.elim_some]

theorem Inv.step (h : Inv file cs s l) (hpos : 0 < cs) (hcs : cs * 2 < 2 ^ 32)
    (hfile : file.length + 2 * cs < 2 ^ 64) {e : Event} (hok : Continues s e) :
    Inv file cs (step file s e).1 (l ++ (PolledFileReader.step file s e).2) := by
  have hstay : Inv file cs (s, ([] : List Handed)).1 (l ++ (s, ([] : List Handed)).2) := by
    rw [List.append_nil]
    exact h
  cases e with
  | call requested =>
    by_cases hn : s.call = none
    · have hs : PolledFileReader.step file s (.call requested) = PolledFileReader.enter s requested :=
        if_pos hn
      rw [hs]
      exact h.enter requested
    · have hs : PolledFileReader.step file s (.call requested) = (s, []) := if_neg hn
      rw [hs]
      exact hstay
  | pass accepted =>
    cases hc : s.call with
    | none =>
      have hs : PolledFileReader.step file s (.pass accepted) = (s, []) := by
        show s.call.elim (s, []) (fun c => PolledFileReader.readPass s c accepted) = _
        rw [hc, Option.elim_none]
      rw [hs]
      exact hstay
    | some c =>
      rw [step_pass hc]
      exact h.readPass hpos hcs hfile hc (hok c hc) rfl
  | complete =>
    cases hr : s.pending with
    | none =>
      have hs : PolledFileReader.step file s .complete = (s, []) := by
        show s.pending.elim (s, []) (fun r => (onRead file s r, [])) = _
        rw [hr, Option.elim_none]
      rw [hs]
      exact hstay
    | some r =>
      rw [step_complete hr, List.append_nil]
      exact h.complete hcs hr

theorem inv_openFile (file cache0 cache1 : List UInt8) {cs : Nat} (hcs : cs * 2 < 2 ^ 32)
    (frontDone : Bool) : Inv file cs (openFile cs cache0 cache1 frontDone) [] := by
  refine ⟨rfl, faithful_nil file, ⟨0, by simp, .inl ?_⟩, ?_⟩
  · constructor <;> simp only [openFile, Nat.mod_eq_of_lt hcs]
  · intro c hc
    cases hc

/-- In every run in which no call swaps the halves after it copied bytes, the calls hand out the
file in order and the end is reported only behind its last byte. -/
theorem polled_file_reader (file cache0 cache1 : List UInt8) (frontDone : Bool) (cs : Nat)
    (hpos : 0 < cs) (hcs : cs * 2 < 2 ^ 32) (hfile : file.length + 2 * cs < 2 ^ 64)
    (events : List Event)
    (hg : Run.Guarded (PolledFileReader.step file) Continues (openFile cs cache0 cache1 frontDone)
      events) :
    Faithful file
      (Run.exec (PolledFileReader.step file) (openFile cs cache0 cache1 frontDone) events).2 := by
  have h := Run.exec_inv (Inv file cs) (fun s l e h hok => h.step hpos hcs hfile hok) events
    (openFile cs cache0 cache1 frontDone) [] (inv_openFile file cache0 cache1 hcs frontDone) hg
  exact h.faithful

/-- A file of half a page is read in two calls; the second reports the end with the last byte. -/
theorem polled_file_reader_half_page :
    Faithful (List.replicate 2047 0 ++ [1])
      (Run.exec (PolledFileReader.step (List.replicate 2047 0 ++ [1]))
        (openFile 4096 (List.replicate 4096 7) (List.replicate 4096 7) false)
        [.call 8, .complete, .call 2047, .pass true, .call 2000, .pass true]).2 :=
  polled_file_reader _ _ _ _ _ (by decide) (by decide) (by decide +kernel) _ (by decide +kernel)

/-- A file of one page and one byte: the call that uses up the first page also swaps the halves and
reports only the byte behind it, so the end is found with one byte handed out. -/
theorem polled_file_reader_loses_page :
    ¬ Faithful (List.replicate 4096 0 ++ [1])
      (Run.exec (PolledFileReader.step (List.replicate 4096 0 ++ [1]))
        (openFile 4096 (List.replicate 4096 7) (List.replicate 4096 7) false)
        [.complete, .call 5000, .pass true, .pass true, .complete, .call 5, .pass true]).2 := by
  intro h
  have hlog : ((Run.exec (PolledFileReader.step (List.replicate 4096 0 ++ [1]))
        (openFile 4096 (List.replicate 4096 7) (List.replicate 4096 7) false)
        [.complete, .call 5000, .pass true, .pass true, .complete, .call 5, .pass true]).2[1]?.map
          Handed.result) = some false := by decide +kernel
  obtain ⟨g, hg, hres⟩ := Option.map_eq_some_iff.mp hlog
  have heof := congrArg List.length (h.eof 1 g hg hres)
  revert heof
  decide +kernel

end Run

end Libcat.Io.PolledFileReader
