import Libcat.Lib.Words
import Mathlib.Data.List.TakeWhile

/-!
# SanitizeKey

The three functions that make a key of a path. A string is the list of its characters; the
terminating zero and what is behind it may be there or not. Bytes from 0x80 on are neither letters nor
digits, as negative `char`s and as characters.

`sanitize_eq` says what the functions make: the words of the string, with dots between them.
-/

namespace Libcat.Lang.SanitizeKey

open Words

section Model

/-- Characters. -/
abbrev Text := List Char

/-- `ch >= 'A' && ch <= 'Z'`. -/
def isUpper (ch : Char) : Bool := decide ('A' ≤ ch) && decide (ch ≤ 'Z')

/-- `ch >= 'a' && ch <= 'z' || ch >= '0' && ch <= '9'`. -/
def isLowerOrDigit (ch : Char) : Bool :=
  decide ('a' ≤ ch) && decide (ch ≤ 'z') || decide ('0' ≤ ch) && decide (ch ≤ '9')

/-- `outs` and `seen_punct`. -/
structure Sanitizer where
  outs : Text
  seen_punct : Bool

/-- `*outs++ = ch`, with the dot before it. -/
def Sanitizer.write (o : Sanitizer) (ch : Char) : Sanitizer :=
  let outs := if o.seen_punct then o.outs ++ ['.'] else o.outs
  ⟨outs ++ [ch], false⟩

/-- A character of the key; `upper` is what is written for a letter from `A` to `Z`. -/
def Sanitizer.read (upper : Char → Char) (o : Sanitizer) (ch : Char) : Sanitizer :=
  if isUpper ch then o.write (upper ch)
  else if isLowerOrDigit ch then o.write ch
  else if o.outs ≠ [] then { o with seen_punct := true }
  else o

/-- The string that is left in the buffer. -/
def sanitize (upper : Char → Char) (key : Text) : Text :=
  (key.foldl (Sanitizer.read upper) ⟨[], false⟩).outs

/-- What a loop reads that ends at a zero. -/
def nulTerminated (key : Text) : Text := key.takeWhile fun ch => decide (ch ≠ '\x00')

/-- `strlen`. -/
def strlen (key : Text) : Nat := (nulTerminated key).length

/-- `ch + 'a' - 'A'`. -/
def toLower (ch : Char) : Char := Char.ofNat (ch.toNat + 'a'.toNat - 'A'.toNat)

/-- `SanitizeKeyStringCase`. -/
def sanitizeKeyStringCase (key : Text) : Text := sanitize id (nulTerminated key)

/-- `SanitizeKeyString`. -/
def sanitizeKeyString (key : Text) : Text := sanitize toLower (nulTerminated key)

/-- `SanitizeKeyRangeString`. -/
def sanitizeKeyRangeString (key : Text) (len : Nat) : Text := sanitize toLower (key.take len)

end Model

section Spec

variable {key : Text} {ch : Char} {upper : Char → Char}

/-- Letters and digits. -/
def isWord (ch : Char) : Bool := isUpper ch || isLowerOrDigit ch

/-- What is written for a letter or a digit. -/
def written (upper : Char → Char) (ch : Char) : Char := if isUpper ch then upper ch else ch

/-- Lower case. -/
def lower : Char → Char := written toLower

/-- Words with dots between them. -/
def dotted (ws : List Text) : Text := ['.'].intercalate ws

/-- The output after some words, and the word at the end of the input. -/
def sanitizer (upper : Char → Char) (ws : List Text) (cur : Text) : Sanitizer :=
  if cur = [] then ⟨dotted (ws.map (List.map (written upper))), decide (ws ≠ [])⟩
  else ⟨dotted ((ws ++ [cur]).map (List.map (written upper))), false⟩

theorem dotted_concat (ws : List Text) (w : Text) :
    dotted (ws ++ [w]) = dotted ws ++ (if ws = [] then [] else ['.']) ++ w :=
  intercalate_concat '.' ws w

theorem read_word (h : isWord ch = true) (o : Sanitizer) :
    o.read upper ch = o.write (written upper ch) := by
  unfold Sanitizer.read written
  by_cases hu : isUpper ch = true
  · rw [if_pos hu, if_pos hu]
  · have hl : isLowerOrDigit ch = true := by
      rw [isWord, Bool.or_eq_true] at h
      exact h.resolve_left hu
    rw [if_neg hu, if_neg hu, if_pos hl]

theorem read_punct (h : isWord ch = false) (o : Sanitizer) :
    o.read upper ch = ⟨o.outs, o.seen_punct || decide (o.outs ≠ [])⟩ := by
  rw [isWord, Bool.or_eq_false_iff] at h
  obtain ⟨outs, seen_punct⟩ := o
  unfold Sanitizer.read
  rw [h.1, h.2]
  by_cases ho : outs = []
  · simp [ho]
  · simp [ho]

theorem sanitizer_read_word (h : isWord ch = true) (ws : List Text) (cur : Text) :
    (sanitizer upper ws cur).read upper ch = sanitizer upper ws (cur ++ [ch]) := by
  rw [read_word h]
  unfold sanitizer Sanitizer.write
  by_cases hcur : cur = []
  · rw [hcur, List.nil_append, if_pos rfl, if_neg (List.cons_ne_nil ch []), List.map_append,
      List.map_singleton, dotted_concat]
    by_cases hws : ws = []
    · simp [hws]
    · simp [hws]
  · rw [if_neg hcur, if_neg (by simp), List.map_append, List.map_append, List.map_singleton,
      List.map_singleton, dotted_concat, dotted_concat, List.map_append]
    simp

theorem sanitizer_read_punct (h : isWord ch = false) (ws : List Text) {cur : Text}
    (hcur : ∀ c ∈ cur, isWord c = true) :
    (sanitizer upper ws cur).read upper ch = sanitizer upper (ws ++ words isWord cur) [] := by
  rw [read_punct h]
  unfold sanitizer
  by_cases hnil : cur = []
  · rw [hnil, words_nil, List.append_nil, if_pos rfl]
    by_cases hws : ws = []
    · rw [hws]
      rfl
    · simp [hws]
  · have hout : dotted ((ws ++ [cur]).map (List.map (written upper))) ≠ [] := by
      rw [List.map_append, List.map_singleton, dotted_concat]
      simp [hnil]
    have hws : ws ++ [cur] ≠ [] := List.append_ne_nil_of_right_ne_nil ws (List.cons_ne_nil cur [])
    rw [words_of_forall hcur hnil, if_neg hnil, if_pos rfl, decide_eq_true hout,
      decide_eq_true hws, Bool.false_or]

theorem foldl_read (key : Text) : ∀ (ws : List Text) (cur : Text), (∀ c ∈ cur, isWord c = true) →
    (key.foldl (Sanitizer.read upper) (sanitizer upper ws cur)).outs =
      dotted ((ws ++ words isWord (cur ++ key)).map (List.map (written upper))) := by
  induction key with
  | nil =>
    intro ws cur hcur
    rw [List.append_nil, List.foldl_nil]
    unfold sanitizer
    by_cases hnil : cur = []
    · rw [hnil, if_pos rfl, words_nil, List.append_nil]
    · rw [if_neg hnil, words_of_forall hcur hnil]
  | cons ch key ih =>
    intro ws cur hcur
    rw [List.foldl_cons]
    cases h : isWord ch with
    | true =>
      rw [sanitizer_read_word h, ih ws (cur ++ [ch]) (by simpa [or_imp, forall_and, h] using hcur)]
      simp
    | false =>
      rw [sanitizer_read_punct h ws hcur, ih _ [] (by simp), words_append_cons _ _ h,
        List.append_assoc, List.nil_append]

/-- The words, as they are written, with dots between them. -/
theorem sanitize_eq (upper : Char → Char) (key : Text) :
    sanitize upper key = dotted ((words isWord key).map (List.map (written upper))) :=
  foldl_read key [] [] (by simp)

end Spec

/-! ## Characters -/

section Characters

variable {ch : Char}

theorem isUpper_iff : isUpper ch = true ↔ 65 ≤ ch.toNat ∧ ch.toNat ≤ 90 := by
  rw [isUpper, Bool.and_eq_true, decide_eq_true_iff, decide_eq_true_iff]
  exact Iff.rfl

theorem isLowerOrDigit_iff : isLowerOrDigit ch = true ↔
    97 ≤ ch.toNat ∧ ch.toNat ≤ 122 ∨ 48 ≤ ch.toNat ∧ ch.toNat ≤ 57 := by
  rw [isLowerOrDigit, Bool.or_eq_true, Bool.and_eq_true, Bool.and_eq_true, decide_eq_true_iff,
    decide_eq_true_iff, decide_eq_true_iff, decide_eq_true_iff]
  exact Iff.rfl

theorem isWord_iff : isWord ch = true ↔ 65 ≤ ch.toNat ∧ ch.toNat ≤ 90 ∨
    97 ≤ ch.toNat ∧ ch.toNat ≤ 122 ∨ 48 ≤ ch.toNat ∧ ch.toNat ≤ 57 := by
  rw [isWord, Bool.or_eq_true, isUpper_iff, isLowerOrDigit_iff]

theorem toNat_ofNat {n : Nat} (h : n < 0xd800) : (Char.ofNat n).toNat = n := by
  unfold Char.ofNat
  rw [dif_pos (Or.inl h)]
  rfl

theorem lower_toNat (ch : Char) :
    (lower ch).toNat = if 65 ≤ ch.toNat ∧ ch.toNat ≤ 90 then ch.toNat + 32 else ch.toNat := by
  unfold lower written
  by_cases h : isUpper ch = true
  · have hup := isUpper_iff.mp h
    have hval : ch.toNat + 'a'.toNat - 'A'.toNat = ch.toNat + 32 := by
      rw [show 'a'.toNat = 97 from rfl, show 'A'.toNat = 65 from rfl]
      omega
    rw [if_pos h, if_pos hup, toLower, hval, toNat_ofNat (by omega)]
  · rw [if_neg h, if_neg fun hup => h (isUpper_iff.mpr hup)]

theorem isWord_lower (h : isWord ch = true) : isWord (lower ch) = true := by
  rw [isWord_iff] at h ⊢
  rw [lower_toNat]
  split <;> omega

theorem lower_lower (ch : Char) : lower (lower ch) = lower ch := by
  rw [← Char.toNat_inj, lower_toNat (lower ch), lower_toNat ch]
  by_cases h : 65 ≤ ch.toNat ∧ ch.toNat ≤ 90
  · rw [if_pos h, if_neg (by omega)]
  · rw [if_neg h, if_neg h]

theorem lower_eq_dot : lower ch = '.' ↔ ch = '.' := by
  rw [← Char.toNat_inj, ← Char.toNat_inj, lower_toNat, show '.'.toNat = 46 from rfl]
  split <;> omega

theorem written_id : written id = id := by
  funext ch
  exact ite_self ch

end Characters

/-! ## Keys -/

section Keys

variable {s t : Text}

/-- The words of a path. -/
def pathWords (s : Text) : List Text := words isWord (nulTerminated s)

/-- The words of a path in lower case. -/
def keyWords (s : Text) : List Text := (pathWords s).map (List.map lower)

theorem sanitizeKeyStringCase_eq (s : Text) : sanitizeKeyStringCase s = dotted (pathWords s) := by
  rw [sanitizeKeyStringCase, sanitize_eq, written_id, List.map_id_fun, List.map_id]
  rfl

theorem sanitizeKeyString_eq (s : Text) : sanitizeKeyString s = dotted (keyWords s) :=
  sanitize_eq toLower _

theorem sanitizeKeyString_eq_lower (s : Text) :
    sanitizeKeyString s = (sanitizeKeyStringCase s).map lower := by
  rw [sanitizeKeyString_eq, sanitizeKeyStringCase_eq, dotted, dotted, map_intercalate,
    lower_eq_dot.mpr rfl]
  rfl

theorem sanitizeKeyRangeString_eq (s : Text) :
    sanitizeKeyRangeString s (strlen s) = sanitizeKeyString s := by
  have hprefix : nulTerminated s <+: s := List.takeWhile_prefix _
  rw [sanitizeKeyRangeString, strlen, ← List.prefix_iff_eq_take.mp hprefix]
  rfl

theorem wordy_pathWords (s : Text) : Wordy isWord (pathWords s) := wordy_words _ _

theorem wordy_keyWords (s : Text) : Wordy isWord (keyWords s) :=
  (wordy_pathWords s).map fun _ => isWord_lower

/-- A read adds a character or a dot that is due, and no more. -/
theorem length_read (upper : Char → Char) (o : Sanitizer) (ch : Char) :
    (o.read upper ch).outs.length + (o.read upper ch).seen_punct.toNat ≤
      o.outs.length + o.seen_punct.toNat + 1 := by
  cases h : isWord ch with
  | true =>
    rw [read_word h, Sanitizer.write]
    cases o.seen_punct <;> simp
  | false =>
    rw [read_punct h]
    have := Bool.toNat_le (o.seen_punct || decide (o.outs ≠ []))
    simp only
    omega

theorem length_sanitize (upper : Char → Char) (key : Text) :
    (sanitize upper key).length ≤ key.length := by
  have hrun : ∀ o : Sanitizer, (key.foldl (Sanitizer.read upper) o).outs.length ≤
      o.outs.length + o.seen_punct.toNat + key.length := by
    induction key with
    | nil =>
      intro o
      rw [List.foldl_nil]
      omega
    | cons ch key ih =>
      intro o
      have := length_read upper o ch
      have := ih (o.read upper ch)
      rw [List.foldl_cons, List.length_cons]
      omega
  exact (hrun ⟨[], false⟩).trans_eq (Nat.zero_add _)

/-- There is no zero in a key. -/
theorem nulTerminated_dotted {ws : List Text} (h : Wordy isWord ws) :
    nulTerminated (dotted ws) = dotted ws := by
  refine List.takeWhile_eq_self_iff.mpr fun ch hch => decide_eq_true ?_
  rintro rfl
  obtain hdot | ⟨w, hw, hmem⟩ := mem_intercalate hch
  · exact absurd hdot (by decide)
  · exact absurd ((h w hw).2 _ hmem) (by decide)

theorem pathWords_dotted {ws : List Text} (h : Wordy isWord ws) : pathWords (dotted ws) = ws := by
  rw [pathWords, nulTerminated_dotted h]
  exact words_intercalate h (by decide)

theorem keyWords_dotted {ws : List Text} (h : Wordy isWord ws) :
    keyWords (dotted ws) = ws.map (List.map lower) := by
  rw [keyWords, pathWords_dotted h]

theorem sanitizeKeyString_idem (s : Text) :
    sanitizeKeyString (sanitizeKeyString s) = sanitizeKeyString s := by
  rw [sanitizeKeyString_eq (sanitizeKeyString s), sanitizeKeyString_eq s,
    keyWords_dotted (wordy_keyWords s), keyWords, List.map_map]
  congr 2
  funext w
  simp [Function.comp_def, lower_lower]

/-- Two paths have one key exactly if they have the same words up to case. -/
theorem sanitizeKeyString_inj : sanitizeKeyString s = sanitizeKeyString t ↔ keyWords s = keyWords t := by
  rw [sanitizeKeyString_eq, sanitizeKeyString_eq]
  refine ⟨fun h => ?_, fun h => by rw [h]⟩
  have hwords := congrArg pathWords h
  rwa [pathWords_dotted (wordy_keyWords s), pathWords_dotted (wordy_keyWords t)] at hwords

/-- The dots of a key are between words. -/
theorem dots_inside {ws : List Text} (h : Wordy isWord ws) :
    (dotted ws).head? ≠ some '.' ∧ (dotted ws).getLast? ≠ some '.' ∧ ¬ ['.', '.'] <:+: dotted ws := by
  refine ⟨fun hhead => ?_, fun hlast => ?_, fun ⟨l, m, hinfix⟩ => ?_⟩
  · obtain ⟨m, heq⟩ := List.head?_eq_some_iff.mp hhead
    exact (neighbours_of_eq_intercalate (l := []) h (by decide) heq).1 rfl
  · obtain ⟨l, heq⟩ := List.getLast?_eq_some_iff.mp hlast
    exact (neighbours_of_eq_intercalate h (by decide) heq).2.1 rfl
  · have heq : dotted ws = l ++ '.' :: '.' :: m := by
      rw [← hinfix]
      simp
    exact (neighbours_of_eq_intercalate h (by decide) heq).2.2 rfl

/-- What is before a dot of a key with its case is one, too. -/
theorem sanitizeKeyStringCase_before {jj : Nat} (hdot : (sanitizeKeyStringCase s)[jj]? = some '.') :
    sanitizeKeyStringCase ((sanitizeKeyStringCase s).take jj) = (sanitizeKeyStringCase s).take jj := by
  obtain ⟨hlt, hget⟩ := List.getElem?_eq_some_iff.mp hdot
  have heq : dotted (pathWords s) = (sanitizeKeyStringCase s).take jj ++
      '.' :: (sanitizeKeyStringCase s).drop (jj + 1) := by
    rw [← sanitizeKeyStringCase_eq, ← hget, ← List.drop_eq_getElem_cons hlt, List.take_append_drop]
  have hbefore := intercalate_words_before (wordy_pathWords s) (by decide) heq
  have hself : dotted (words isWord ((sanitizeKeyStringCase s).take jj)) =
    (sanitizeKeyStringCase s).take jj := hbefore
  rw [sanitizeKeyStringCase_eq ((sanitizeKeyStringCase s).take jj), ← hself,
    pathWords_dotted (wordy_words _ _)]

theorem dot_iff (s : Text) (i : Nat) :
    (sanitizeKeyString s)[i]? = some '.' ↔ (sanitizeKeyStringCase s)[i]? = some '.' := by
  rw [sanitizeKeyString_eq_lower, List.getElem?_map, Option.map_eq_some_iff]
  constructor
  · rintro ⟨ch, hch, hdot⟩
    rw [hch, lower_eq_dot.mp hdot]
  · intro h
    exact ⟨'.', h, lower_eq_dot.mpr rfl⟩

/-- What is before a dot of a key is the key of what is before the dot with its case. -/
theorem take_before_dot {jj : Nat} (hdot : (sanitizeKeyString s)[jj]? = some '.') :
    (sanitizeKeyString s).take jj = ((sanitizeKeyStringCase s).take jj).map lower ∧
      sanitizeKeyStringCase ((sanitizeKeyStringCase s).take jj) = (sanitizeKeyStringCase s).take jj ∧
      sanitizeKeyString ((sanitizeKeyStringCase s).take jj) = (sanitizeKeyString s).take jj := by
  have hcase := sanitizeKeyStringCase_before ((dot_iff s jj).mp hdot)
  have htake : (sanitizeKeyString s).take jj = ((sanitizeKeyStringCase s).take jj).map lower := by
    rw [sanitizeKeyString_eq_lower, List.map_take]
  refine ⟨htake, hcase, ?_⟩
  rw [sanitizeKeyString_eq_lower, hcase, htake]

end Keys

end Libcat.Lang.SanitizeKey
