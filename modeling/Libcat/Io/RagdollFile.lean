import Libcat.Lang.HashTable
import Libcat.Lib.Intrusive
import Libcat.Lib.Run

/-!
# Settings behind a lock

The accessors of `ragdoll::File` that take an `RWLock`. `Set` and `SetInt` are one write-locked section.
`Get` and `GetInt` look up under the read lock, and what they do not find they insert in a second
section, under the write lock: between the two, other calls run.
-/

namespace Libcat.Io.RagdollFile

open Lang.HashTable Intrusive Run

section Model

/-- Characters, without the terminating zero. -/
abbrev Text := List Char

/-- The longest key or value. -/
def MAX_CHARS : Nat := 256

/-- `SetFromNulTerminatedString`. -/
def setFromNulTerminatedString (value : Text) : Text := value.take MAX_CHARS

/-- The digit of a remainder, which has the sign of the number. -/
def digitChar (r : Int) : Char :=
  "zyxwvutsrqponmlkjihgfedcba9876543210123456789abcdefghijklmnopqrstuvwxyz".toList.getD
    (35 + r).toNat '0'

/-- The loop of `IntegerToArray`, lowest digit first, with the sign after it. -/
def integerLoop : Nat → Int → Text
  | 0, _ => []
  | fuel + 1, prev =>
    let x := prev.tdiv 10
    digitChar (prev - x * 10) ::
      if x ≠ 0 then integerLoop fuel x else if prev < 0 then ['-'] else []

/-- `IntegerToArray` for 32 bits and radix 10, which fits its buffer. -/
def integerToArray (x : Int) : Text := (integerLoop 10 x).reverse

/-- The digits at the front, after what was read. -/
def digits (acc : Int) : Text → Int
  | [] => acc
  | c :: l => if c.isDigit then digits (acc * 10 + (c.toNat - 48 : Nat)) l else acc

/-- `atoi`, for `GetInt`. -/
def atoi (s : Text) : Int :=
  match s.dropWhile fun c => decide (c = ' ') || decide ('\t' ≤ c) && decide (c ≤ '\r') with
  | '-' :: l => -digits 0 l
  | '+' :: l => digits 0 l
  | l => digits 0 l

/-- A sanitized key, no longer than its buffer. -/
abbrev SanitizedKey := { key : Text // key.length ≤ MAX_CHARS }

/-- The table, the fields of the items and the heads of the two lists. -/
structure File where
  table : HashTableBase SanitizedKey
  value : Nat → Text
  enlisted : Nat → Bool
  sort_next : Nat → Option Nat
  newest : Option Nat
  modded : Option Nat
  /-- The next item that is allocated. -/
  items : Nat

variable (hash : SanitizedKey → Nat) (storeEmpty : Bool)

/-- A new item for a key, on the new list. -/
def createItem (k : SanitizedKey) (value : Text) (memory : Memory) (f : File) : File × Bool :=
  let item := f.items
  let r := create hash f.table k item memory
  let f := { f with table := r.1, items := item + 1 }
  if r.2 then
    ({ f with
        sort_next := Function.update f.sort_next item f.newest
        newest := some item
        enlisted := Function.update f.enlisted item true
        value := Function.update f.value item value }, true)
  else (f, false)

/-- An item that is there gets a value, and is listed if it is not yet. -/
def changeItem (item : Nat) (value : Text) (f : File) : File :=
  let f := if !f.enlisted item then
      { f with
        sort_next := Function.update f.sort_next item f.modded
        modded := some item
        enlisted := Function.update f.enlisted item true }
    else f
  { f with value := Function.update f.value item value }

/-- The section of `Set` and `SetInt`; true if the value is stored. -/
def setSection (k : SanitizedKey) (undefined : Bool) (value : Text) (memory : Memory) (f : File) :
    File × Bool :=
  match lookup hash f.table k with
  | none => if undefined && !storeEmpty then (f, false) else createItem hash k value memory f
  | some item => (changeItem item value f, true)

/-- What an accessor takes: a string or an integer. -/
inductive Value where
  | str (value : Text)
  | int (value : Int)
  deriving DecidableEq

/-- The characters that are stored: `SetValueStr`, `SetValueInt`. -/
def Value.stored : Value → Text
  | .str value => setFromNulTerminatedString value
  | .int value => integerToArray value

/-- The values that are not stored for a new key. -/
def Value.undefined : Value → Bool
  | .str value => decide (value = [])
  | .int value => decide (value = 0)

/-- A file, and the calls of `Get` and `GetInt` between their two sections, with their defaults. -/
structure State where
  file : File
  pending : Nat → Option (SanitizedKey × Value)

/-- A section of some call. -/
inductive Section where
  | set (k : SanitizedKey) (value : Value) (memory : Memory)
  | get (call : Nat) (k : SanitizedKey) (defaultValue : Value)
  | insert (call : Nat) (memory : Memory)

/-- What the sections have done: a value was stored by a `Set`, and a lookup has found a value or none. -/
inductive Event where
  | stored (k : SanitizedKey) (value : Text)
  | found (k : SanitizedKey) (value : Option Text)
  deriving DecidableEq

/-- `Set` and `SetInt`; the read-locked section of `Get` and `GetInt`, after which the call is pending if
there is a default to insert; and the section that inserts it, with no second look. -/
def step (s : State) : Section → State × List Event
  | .set k value memory =>
    let r := setSection hash storeEmpty k value.undefined value.stored memory s.file
    ({ s with file := r.1 }, if r.2 then [.stored k value.stored] else [])
  | .get call k defaultValue =>
    match s.pending call with
    | some _ => (s, [])
    | none =>
      match lookup hash s.file.table k with
      | some item => (s, [.found k (some (s.file.value item))])
      | none =>
        if defaultValue.undefined && !storeEmpty then (s, [.found k none])
        else ({ s with pending := Function.update s.pending call (some (k, defaultValue)) },
          [.found k none])
  | .insert call memory =>
    match s.pending call with
    | none => (s, [])
    | some (k, defaultValue) =>
      ({ file := (createItem hash k defaultValue.stored memory s.file).1,
         pending := Function.update s.pending call none }, [])

end Model

/-! ## Integers -/

section Integers

variable {l m : Text} {c : Char} {fuel n : Nat}

end Integers

/-! ## Items and lists -/

section Sections

variable {hash : SanitizedKey → Nat} {storeEmpty : Bool} {f : File} {item : Nat} {k : SanitizedKey}
  {value : Text}

/-- The items of the two lists. -/
structure Lists (f : File) (l m : List Nat) : Prop where
  newest : Seg f.sort_next f.newest l none
  modded : Seg f.sort_next f.modded m none
  nodup : (l ++ m).Nodup
  enlisted : ∀ x ∈ l ++ m, f.enlisted x = true ∧ x < f.items

/-- The table is in order, and an item is on one list at most. -/
structure Sound (hash : SanitizedKey → Nat) (f : File) : Prop where
  placed : Placed hash f.table
  old : ∀ x, Holds f.table x → x < f.items
  lists : ∃ newest modded, Lists f newest modded

/-- No two items have the same key. -/
def Unique (f : File) : Prop :=
  ∀ x y, Holds f.table x → Holds f.table y → f.table.key x = f.table.key y → x = y

/-- An item with the key has the value. -/
def Current (f : File) (k : SanitizedKey) (value : Text) : Prop :=
  ∃ x, Holds f.table x ∧ f.table.key x = k ∧ f.value x = value

theorem Current.lookup (h : Current f k value) (hs : Sound hash f) (hu : Unique f) :
    ∃ x, lookup hash f.table k = some x ∧ f.value x = value := by
  obtain ⟨x, hx, hk, hv⟩ := h
  exact ⟨x, lookup_eq hs.placed hu hx hk, hv⟩

/-- A list gets an item that is on neither. -/
theorem Lists.push {newest modded : List Nat} (h : Lists f newest modded) (hx : item ∉ newest ++ modded) :
    Seg (Function.update f.sort_next item f.newest) (some item) (item :: newest) none ∧
      Seg (Function.update f.sort_next item f.newest) f.modded modded none ∧
      Seg (Function.update f.sort_next item f.modded) (some item) (item :: modded) none ∧
      Seg (Function.update f.sort_next item f.modded) f.newest newest none := by
  rw [List.mem_append, not_or] at hx
  refine ⟨⟨rfl, ?_⟩, h.modded.frame hx.2, ⟨rfl, ?_⟩, h.newest.frame hx.1⟩
  · rw [Function.update_self]
    exact h.newest.frame hx.1
  · rw [Function.update_self]
    exact h.modded.frame hx.2

end Sections

/-! ## Runs -/

section Runs

variable {hash : SanitizedKey → Nat} {storeEmpty : Bool} {s : State} {log : List Event}

/-- No `Set` stores a value for the key. -/
def Unset (k : SanitizedKey) (log : List Event) : Prop := ∀ value, .stored k value ∉ log

/-- What was stored for a key is found until the next `Set` of the key. -/
def Reads (log : List Event) : Prop :=
  ∀ before k value between r after,
    log = before ++ .stored k value :: between ++ .found k r :: after → Unset k between → r = some value

/-- What was stored last for a key is in the table. -/
def Written (f : File) (log : List Event) : Prop :=
  ∀ before k value after, log = before ++ .stored k value :: after → Unset k after → Current f k value

/-- The last event of a log that is cut in two. -/
theorem split_concat {α : Type} {l before after : List α} {x e : α}
    (h : l ++ [e] = before ++ x :: after) :
    (after = [] ∧ x = e ∧ before = l) ∨ ∃ after', after = after' ++ [e] ∧ l = before ++ x :: after' := by
  rcases List.eq_nil_or_concat after with rfl | ⟨after', y, rfl⟩
  · obtain ⟨h1, h2⟩ := List.append_inj' h rfl
    exact .inl ⟨rfl, (List.singleton_inj.mp h2).symm, h1.symm⟩
  · rw [List.concat_eq_append, ← List.cons_append, ← List.append_assoc] at h
    obtain ⟨h1, h2⟩ := List.append_inj' h rfl
    obtain rfl := List.singleton_inj.mp h2
    exact .inr ⟨after', by rw [List.concat_eq_append], h1⟩

theorem Unset.of_concat {k : SanitizedKey} {e : Event} (h : Unset k (log ++ [e])) : Unset k log :=
  fun value hm => h value (List.mem_append_left _ hm)

/-- A lookup adds to the log what is in the table. -/
theorem Reads.found (h : Reads log) {f : File} (hw : Written f log) {k : SanitizedKey}
    {r : Option Text} (hr : ∀ value, Current f k value → r = some value) :
    Reads (log ++ [.found k r]) := by
  intro before k' value between r' after heq hunset
  rcases split_concat heq with ⟨rfl, hlast, hbefore⟩ | ⟨after', rfl, hlog⟩
  · obtain ⟨rfl, rfl⟩ := Event.found.inj hlast
    exact hr value (hw before k' value between hbefore.symm hunset)
  · exact h before k' value between r' after' hlog hunset

theorem Reads.stored (h : Reads log) (k : SanitizedKey) (value : Text) :
    Reads (log ++ [.stored k value]) := by
  intro before k' value' between r' after heq hunset
  rcases split_concat heq with ⟨-, hlast, -⟩ | ⟨after', rfl, hlog⟩
  · cases hlast
  · exact h before k' value' between r' after' hlog hunset

theorem Written.found {f : File} (h : Written f log) (k : SanitizedKey) (r : Option Text) :
    Written f (log ++ [.found k r]) := by
  intro before k' value after heq hunset
  rcases split_concat heq with ⟨-, hlast, -⟩ | ⟨after', rfl, hlog⟩
  · cases hlast
  · exact h before k' value after' hlog hunset.of_concat

/-- A value is stored, and the values of other keys stay. -/
theorem Written.stored {f f' : File} (h : Written f log) {k : SanitizedKey} {value : Text}
    (hc : Current f' k value)
    (hkeep : ∀ k' value', Current f k' value' → k' ≠ k → Current f' k' value') :
    Written f' (log ++ [.stored k value]) := by
  intro before k' value' after heq hunset
  rcases split_concat heq with ⟨-, hlast, -⟩ | ⟨after', rfl, hlog⟩
  · obtain ⟨rfl, rfl⟩ := Event.stored.inj hlast
    exact hc
  · refine hkeep k' value' (h before k' value' after' hlog hunset.of_concat) fun hk => ?_
    exact hunset value (hk ▸ List.mem_append_right _ (List.mem_singleton_self _))

end Runs

end Libcat.Io.RagdollFile
