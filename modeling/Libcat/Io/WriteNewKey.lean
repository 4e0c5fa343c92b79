import Libcat.Io.RagdollFile
import Libcat.Lang.SanitizeKey
import Libcat.Math.BitMath

/-!
# Keys of new settings

`WriteNewKey` links an item that is not in the settings file behind its parent. It cuts the key at its
last dots, and the parents that are missing are made with what is before the cut: of the key in the
table, and of the key with its case for the file. `sanitized_keys` says that the cuts fit.
-/

namespace Libcat.Io.WriteNewKey

open Lang.HashTable Lang.SanitizeKey
open RagdollFile (SanitizedKey MAX_CHARS)

section Model

/-- `SetFromRangeString`. -/
def setFromRangeString (str : Text) (len : Nat) : Text := str.take (min len MAX_CHARS)

/-- The fields of the file and of its items that the settings writer uses for new keys. -/
structure File where
  table : HashTableBase SanitizedKey
  case_key : Nat → Text
  value : Nat → Text
  enlisted : Nat → Bool
  sort_next : Nat → Option Nat
  sort_value : Nat → u32
  eol_offset : Nat → u32
  depth : Nat → Int
  modded : Option Nat
  eof_head : Option Nat
  key_depth : Int
  /-- The next item that is allocated. -/
  items : Nat

namespace File

/-- The parent is found: insert after it, or at the front of the modified list. -/
def insertAfter (parent front fin : Nat) (f : File) : u32 × File :=
  let f :=
    if f.enlisted parent then
      { f with
        sort_next := Function.update (Function.update f.sort_next fin (f.sort_next parent)) parent
          (some front) }
    else
      { f with
        sort_next := Function.update f.sort_next fin f.modded
        modded := some front }
  (if f.eol_offset parent ≠ 0 then f.eol_offset parent else f.sort_value parent,
    { f with key_depth := f.depth parent })

/-- No parent is found: insert at the front of the eof list. -/
def insertEof (front fin : Nat) (f : File) : u32 × File :=
  (0, { f with
        sort_next := Function.update f.sort_next fin f.eof_head
        eof_head := some front
        key_depth := -1 })

/-- Fill in a parent that was made. -/
def fillItem (item front : Nat) (offset : u32) (case_key : Text) (f : File) : File :=
  { f with
    enlisted := Function.update f.enlisted item true
    sort_value := Function.update f.sort_value item offset
    eol_offset := Function.update f.eol_offset item 0
    sort_next := Function.update f.sort_next item (some front)
    key_depth := f.key_depth + 1
    depth := Function.update f.depth item (f.key_depth + 1)
    case_key := Function.update f.case_key item case_key
    value := Function.update f.value item [] }

end File

/-- The first characters of a key. -/
def keyPart (key : SanitizedKey) (jj : Nat) : SanitizedKey :=
  ⟨key.1.take jj, (List.length_take_le' jj key.1).trans key.2⟩

/-- `WriteNewKey`, for the items `front` to `fin`. The loop goes on at `jj` like a call with a key of
`jj` characters. -/
def writeNewKey (hash : SanitizedKey → Nat) (memory : Nat → Memory) (case_key : Text)
    (key : SanitizedKey) (fin : Nat) : Nat → Nat → File → u32 × File
  | 0, front, f => f.insertEof front fin
  | jj + 1, front, f =>
    if jj ≤ 1 then f.insertEof front fin
    else if key.1[jj]? ≠ some '.' then writeNewKey hash memory case_key key fin jj front f
    else
      match lookup hash f.table (keyPart key jj) with
      | some parent => f.insertAfter parent front fin
      | none =>
        let item := f.items
        let r := create hash f.table (keyPart key jj) item (memory item)
        if !r.2 then (0, { f with table := r.1 })
        else
          let w := writeNewKey hash memory case_key key fin jj item
            { f with table := r.1, items := item + 1 }
          (w.1, w.2.fillItem item front w.1 (setFromRangeString case_key jj))

end Model

section Spec

variable {hash : SanitizedKey → Nat} {memory : Nat → Memory} {case_key : Text} {key : SanitizedKey}
  {fin : Nat}

theorem grow_key {t t' : HashTableBase SanitizedKey} {ok : Bool} (h : grow hash t ok = some t') :
    t'.key = t.key := by
  unfold grow at h
  cases ok with
  | true =>
    obtain rfl := Option.some.inj h
    rfl
  | false => cases h

theorem create_key (t : HashTableBase SanitizedKey) (k : SanitizedKey) (item : Nat) (m : Memory) :
    (create hash t k item m).1.key =
      if (create hash t k item m).2 then Function.update t.key item k else t.key := by
  unfold create
  cases h1 : (if t.allocated = 0 then grow hash t m.first else some t) with
  | none => rfl
  | some t1 =>
    have hkey1 : t1.key = t.key := by
      split at h1
      · exact grow_key h1
      · rw [Option.some.inj h1]
    cases m.item with
    | false => exact hkey1
    | true =>
      cases h2 : (if t1.allocated ≤ t1.used * GROW_THRESH % 2 ^ 32 then grow hash t1 m.grow
        else some t1) with
      | none =>
        simp only [Bool.not_true, Bool.false_eq_true, if_false, h2]
        exact hkey1
      | some t2 =>
        have hkey2 : t2.key = t.key := by
          split at h2
          · exact (grow_key h2).trans hkey1
          · rw [← Option.some.inj h2, hkey1]
        simp only [Bool.not_true, Bool.false_eq_true, if_false, h2, if_true, hkey2]

/-- An item that was made for what is before a dot of the key. -/
def CutAt (case_key : Text) (key : SanitizedKey) (key_len : Nat) (f : File) (item : Nat) : Prop :=
  ∃ jj, jj < key_len ∧ key.1[jj]? = some '.' ∧ f.table.key item = keyPart key jj ∧
    f.case_key item = setFromRangeString case_key jj

/-- What a call does to the keys of the items: those that are there keep theirs, and the new ones have
parts of the key. -/
structure Extends (case_key : Text) (key : SanitizedKey) (key_len : Nat) (f f' : File) : Prop where
  items : f.items ≤ f'.items
  key_eq : ∀ item < f.items, f'.table.key item = f.table.key item
  case_eq : ∀ item < f.items, f'.case_key item = f.case_key item
  cut : ∀ item, f.items ≤ item → item < f'.items → CutAt case_key key key_len f' item

theorem Extends.of_eq {key_len : Nat} {f f' : File} (hitems : f'.items = f.items)
    (hkey : f'.table.key = f.table.key) (hcase : f'.case_key = f.case_key) :
    Extends case_key key key_len f f' where
  items := hitems.ge
  key_eq _ _ := by rw [hkey]
  case_eq _ _ := by rw [hcase]
  cut item hlo hhi := absurd hhi (by omega)

theorem CutAt.mono {key_len n : Nat} {f : File} {item : Nat} (h : CutAt case_key key n f item)
    (hn : n ≤ key_len) : CutAt case_key key key_len f item := by
  obtain ⟨jj, hjj, hrest⟩ := h
  exact ⟨jj, by omega, hrest⟩

theorem insertAfter_extends (key_len parent front : Nat) (f : File) :
    Extends case_key key key_len f (f.insertAfter parent front fin).2 := by
  unfold File.insertAfter
  dsimp only
  split
  · exact .of_eq rfl rfl rfl
  · exact .of_eq rfl rfl rfl

theorem writeNewKey_extends (key_len : Nat) : ∀ (front : Nat) (f : File),
    Extends case_key key key_len f
      (writeNewKey hash memory case_key key fin key_len front f).2 := by
  induction key_len with
  | zero => exact fun front f => .of_eq rfl rfl rfl
  | succ jj ih =>
    intro front f
    unfold writeNewKey
    by_cases hend : jj ≤ 1
    · rw [if_pos hend]
      exact .of_eq rfl rfl rfl
    rw [if_neg hend]
    by_cases hdot : key.1[jj]? ≠ some '.'
    · rw [if_pos hdot]
      have h := ih front f
      exact ⟨h.items, h.key_eq, h.case_eq, fun item hlo hhi =>
        (h.cut item hlo hhi).mono (Nat.le_succ jj)⟩
    rw [if_neg hdot]
    cases lookup hash f.table (keyPart key jj) with
    | some parent => exact insertAfter_extends _ parent front f
    | none =>
      have hcreate := @create_key hash f.table (keyPart key jj) f.items (memory f.items)
      cases hok : (create hash f.table (keyPart key jj) f.items (memory f.items)).2 with
      | false =>
        rw [hok] at hcreate
        simp only [hok, Bool.not_false, if_true]
        exact .of_eq rfl hcreate rfl
      | true =>
        rw [hok] at hcreate
        simp only [hok, Bool.not_true, Bool.false_eq_true, if_false]
        -- the recursion leaves the new item alone, and its key is the part before the dot
        have h := ih f.items
          { f with
            table := (create hash f.table (keyPart key jj) f.items (memory f.items)).1
            items := f.items + 1 }
        have hnew := h.key_eq f.items (Nat.lt_succ_self _)
        rw [hcreate, if_pos rfl, Function.update_self] at hnew
        have hitems := h.items
        refine ⟨Nat.le_of_succ_le hitems, fun item hitem => ?_, fun item hitem => ?_,
          fun item hlo hhi => ?_⟩
        · have hold := h.key_eq item (Nat.lt_succ_of_lt hitem)
          rw [hcreate, if_pos rfl, Function.update_of_ne hitem.ne] at hold
          exact hold
        · have hold := h.case_eq item (Nat.lt_succ_of_lt hitem)
          rw [← hold]
          exact Function.update_of_ne hitem.ne _ _
        · by_cases hitem : item = f.items
          · subst hitem
            exact ⟨jj, Nat.lt_succ_self jj, not_not.mp hdot, hnew, Function.update_self ..⟩
          · obtain ⟨n, hn, hat, hkey, hcase⟩ := h.cut item (by
              show f.items + 1 ≤ item
              omega) hhi
            exact ⟨n, by omega, hat, hkey, (Function.update_of_ne hitem _ _).trans hcase⟩

/-- **Sanitized keys.** The key of a path is its spelling with case in lower case, and it is what the
function for ranges makes. It is no longer than the path, makes itself again, and has its dots between
words. Paths with the same words up to case share an item. What is before a dot of the key is the key
of what is before the dot of the spelling, and so are the two keys of each parent that `WriteNewKey`
makes. -/
theorem sanitized_keys (s : Text) :
    sanitizeKeyString s = (sanitizeKeyStringCase s).map lower ∧
      (sanitizeKeyString s).length = (sanitizeKeyStringCase s).length ∧
      (∀ i : Nat, (sanitizeKeyString s)[i]? = some '.' ↔ (sanitizeKeyStringCase s)[i]? = some '.') ∧
      sanitizeKeyRangeString s (strlen s) = sanitizeKeyString s ∧
      (sanitizeKeyString s).length ≤ strlen s ∧
      sanitizeKeyString (sanitizeKeyString s) = sanitizeKeyString s ∧
      ((sanitizeKeyString s).head? ≠ some '.' ∧ (sanitizeKeyString s).getLast? ≠ some '.' ∧
        ¬ ['.', '.'] <:+: sanitizeKeyString s) ∧
      (∀ t, keyWords s = keyWords t ↔ sanitizeKeyString s = sanitizeKeyString t) ∧
      (∀ t, keyWords s = keyWords t → ∀ (hash : SanitizedKey → Nat) (f : File) (k k' : SanitizedKey),
        k.1 = sanitizeKeyString s → k'.1 = sanitizeKeyString t →
          lookup hash f.table k = lookup hash f.table k') ∧
      (∀ jj : Nat, (sanitizeKeyString s)[jj]? = some '.' →
        (sanitizeKeyString s).take jj = ((sanitizeKeyStringCase s).take jj).map lower ∧
        sanitizeKeyStringCase ((sanitizeKeyStringCase s).take jj) =
          (sanitizeKeyStringCase s).take jj ∧
        sanitizeKeyString ((sanitizeKeyStringCase s).take jj) = (sanitizeKeyString s).take jj) ∧
      ∀ (hash : SanitizedKey → Nat) (memory : Nat → Memory) (key : SanitizedKey) (fin front : Nat)
        (f f' : File), key.1 = sanitizeKeyString s →
          f' = (writeNewKey hash memory (sanitizeKeyStringCase s) key fin key.1.length front f).2 →
            ∀ item, f.items ≤ item → item < f'.items →
              (f'.table.key item).1 <+: sanitizeKeyString s ∧
              f'.case_key item <+: sanitizeKeyStringCase s ∧
              (f'.table.key item).1 = (f'.case_key item).map lower ∧
              (f'.table.key item).1 = sanitizeKeyString (f'.case_key item) := by
  have hlower := sanitizeKeyString_eq_lower s
  have hcut : ∀ jj, (sanitizeKeyString s)[jj]? = some '.' →
      (sanitizeKeyString s).take jj = ((sanitizeKeyStringCase s).take jj).map lower ∧
        sanitizeKeyStringCase ((sanitizeKeyStringCase s).take jj) =
          (sanitizeKeyStringCase s).take jj ∧
        sanitizeKeyString ((sanitizeKeyStringCase s).take jj) = (sanitizeKeyString s).take jj :=
    fun jj => take_before_dot
  refine ⟨hlower, by rw [hlower, List.length_map], dot_iff s, sanitizeKeyRangeString_eq s,
    length_sanitize _ _, sanitizeKeyString_idem s, ?_, fun t => sanitizeKeyString_inj.symm, ?_,
    hcut, ?_⟩
  · rw [sanitizeKeyString_eq]
    exact dots_inside (wordy_keyWords s)
  · intro t ht hash f k k' hk hk'
    have heq : k = k' := Subtype.ext (by rw [hk, hk', sanitizeKeyString_inj.mpr ht])
    rw [heq]
  · intro hash memory key fin front f f' hkey hf' item hlo hhi
    subst hf'
    obtain ⟨jj, hjj, hdot, hitem, hcase⟩ :=
      (writeNewKey_extends key.1.length front f).cut item hlo hhi
    have hfits : min jj MAX_CHARS = jj := Nat.min_eq_left (hjj.le.trans key.2)
    rw [setFromRangeString, hfits] at hcase
    rw [hkey] at hdot
    obtain ⟨hlow, -, hself⟩ := hcut jj hdot
    have hpart : (keyPart key jj).1 = (sanitizeKeyString s).take jj := congrArg (List.take jj) hkey
    rw [hitem, hcase, hpart]
    exact ⟨List.take_prefix _ _, List.take_prefix _ _, hlow, hself.symm⟩

/-- The parents of a key, in an empty table. -/
theorem sanitized_keys_parents :
    let f : File := ⟨⟨fun _ => ⟨[], Nat.zero_le _⟩, fun _ => [], 0, 0⟩, fun _ => [], fun _ => [],
      fun _ => false, fun _ => none, fun _ => 0, fun _ => 0, fun _ => 0, none, none, 0, 1⟩
    let s := "Log//Net.Port!".toList
    let key : SanitizedKey := ⟨sanitizeKeyString s, by decide⟩
    let f' := (writeNewKey (fun _ => 0) (fun _ => ⟨true, true, true⟩) (sanitizeKeyStringCase s) key 0
      key.1.length 0 f).2
    (f'.table.key 1).1 = (f'.case_key 1).map lower :=
  ((sanitized_keys _).2.2.2.2.2.2.2.2.2.2 _ _ _ 0 0 _ _ rfl rfl 1 (by decide) (by decide)).2.2.1

end Spec

end Libcat.Io.WriteNewKey
