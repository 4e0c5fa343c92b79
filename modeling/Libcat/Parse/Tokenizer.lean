import Libcat.Math.BitMath
import Mathlib.Data.List.Destutter
import Mathlib.Data.List.DropRight
import Mathlib.Data.List.GetD
import Mathlib.Tactic

/-!
# BufferTok

The tokenizer: `readNext` copies a token with its spaces collapsed, `operator[]` goes to the next line
and `operator>>` extracts from the line. One variable has the last character for the spaces and for the
pairs of carriage return and line feed, and the space at the end is taken back after it was copied, or
was not.

- `segment`, `tidy`: the characters that a call goes through, and the token that they are.
- `readNext_iff` says when a call returns its token; what it consumes is right in any case.
- `tokenizer` is about calls and loops.
-/

namespace Libcat.Parse.Tokenizer

section Model

def SPACE : u8 := 32

def CR : u8 := 13

def LF : u8 := 10

/-- `buffer` and `len` are the characters that are left. -/
structure BufferTok where
  buffer : List u8
  delimiter : u8
  newline : Bool

/-- The variables of `readNext`, and the token as memory. -/
structure Scan where
  seenNonSpace : Bool
  last : u8
  copied : Nat
  token : Nat → u8
  newline : Bool

/-- The constructor. -/
def BufferTok.new (buffer : List u8) : BufferTok := ⟨buffer, SPACE, true⟩

/-- `operator()`. -/
def BufferTok.setDelimiter (t : BufferTok) (ch : u8) : BufferTok := { t with delimiter := ch }

/-- The loop of `operator[]`, which starts without the newline flag. -/
def skipLine : Bool → u8 → List u8 → List u8
  | _, _, [] => []
  | newline, last, ch :: buffer =>
    if ch = CR ∨ ch = LF then
      if newline ∧ ch ≠ last then buffer else skipLine true ch buffer
    else if newline then ch :: buffer
    else skipLine newline last buffer

/-- `operator[]`. -/
def BufferTok.index (t : BufferTok) (ch : u8) : BufferTok where
  buffer := if !t.newline then skipLine false 0 t.buffer else t.buffer
  delimiter := ch
  newline := false

/-- A character is copied if there is room for it and for the terminator. -/
def Scan.copy (tokenBufferSize : Nat) (s : Scan) (ch : u8) : Scan :=
  if s.copied < (tokenBufferSize + 2 ^ 32 - 1) % 2 ^ 32 then
    { s with token := Function.update s.token s.copied ch, copied := s.copied + 1 }
  else s

/-- The `switch` of `readNext`. -/
def Scan.consume (tokenBufferSize : Nat) (s : Scan) (ch : u8) : Scan :=
  if ch = SPACE then
    if s.seenNonSpace ∧ s.last ≠ SPACE then { s.copy tokenBufferSize ch with last := ch } else s
  else if ch = CR ∨ ch = LF then { s with newline := true, last := ch }
  else if (ch - 33).toNat < 94 then { s.copy tokenBufferSize ch with seenNonSpace := true, last := ch }
  else s

/-- The loop of `readNext`: what is left of the buffer, and the variables. -/
def readLoop (delimiter : u8) (tokenBufferSize : Nat) : List u8 → Scan → List u8 × Scan
  | [], s => ([], s)
  | ch :: buffer, s =>
    if s.newline then (if ch ≠ s.last ∧ (ch = CR ∨ ch = LF) then buffer else ch :: buffer, s)
    else if ch = delimiter ∧ (delimiter ≠ SPACE ∨ s.seenNonSpace) then (buffer, s)
    else readLoop delimiter tokenBufferSize buffer (s.consume tokenBufferSize ch)

/-- `readNext`: the tokenizer, the token and the return value. -/
def BufferTok.readNext (t : BufferTok) (token : Nat → u8) (tokenBufferSize : Nat) :
    BufferTok × (Nat → u8) × Nat :=
  if t.buffer = [] ∨ t.newline then (t, Function.update token 0 0, 0)
  else
    let r := readLoop t.delimiter tokenBufferSize t.buffer ⟨false, 0, 0, token, false⟩
    let copied := if r.2.last = SPACE then (r.2.copied + 2 ^ 32 - 1) % 2 ^ 32 else r.2.copied
    ({ t with buffer := r.1, newline := r.2.newline }, Function.update r.2.token copied 0, copied)

/-- `operator>>` for a string. -/
def BufferTok.extract (t : BufferTok) (n : Nat → u8) : BufferTok × (Nat → u8) × Nat := t.readNext n 256

/-- `operator>>` for a number, with the value of `atoi`. -/
def BufferTok.extractInt (atoi : (Nat → u8) → Int) (t : BufferTok) (work : Nat → u8) : BufferTok × Int :=
  let r := t.readNext work 256
  (r.1, if r.2.2 ≠ 0 then atoi r.2.1 else 0)

/-- `operator>>`, as often as that. -/
def BufferTok.extracts (token : Nat → u8) : Nat → BufferTok → BufferTok × List ((Nat → u8) × Nat)
  | 0, t => (t, [])
  | n + 1, t =>
    let r := t.extract token
    let q := BufferTok.extracts token n r.1
    (q.1, r.2 :: q.2)

/-- A loop while the buffer is not empty: an `operator[]`, and then so many times `operator>>`. -/
def loop (token : Nat → u8) (program : Nat → u8 × Nat) :
    Nat → Nat → BufferTok → Option (List (List ((Nat → u8) × Nat)))
  | 0, _, t => if t.buffer = [] then some [] else none
  | fuel + 1, k, t =>
    if t.buffer = [] then some []
    else
      let r := (t.index (program k).1).extracts token (program k).2
      (loop token program fuel (k + 1) r.1).map (r.2 :: ·)

/-! ## What a token is -/

def isEnd (ch : u8) : Bool := ch = CR ∨ ch = LF

def isPrint (ch : u8) : Bool := 33 ≤ ch.toNat ∧ ch.toNat ≤ 126

/-- What is kept of a token. -/
def isKept (ch : u8) : Bool := ch = SPACE ∨ isPrint ch

/-- The characters up to the next delimiter or line end. A space is not a delimiter before there is
something else. -/
def segment (delimiter : u8) (buffer : List u8) : List u8 :=
  let lead := if delimiter = SPACE then buffer.takeWhile fun c => !isPrint c && !isEnd c else []
  lead ++ (buffer.drop lead.length).takeWhile fun c => c != delimiter && !isEnd c

/-- The printing characters and the spaces from the first character on, each run of spaces as one. -/
def squeezed (chars : List u8) : List u8 :=
  ((chars.filter isKept).dropWhile (· = SPACE)).destutter fun a b => ¬(a = SPACE ∧ b = SPACE)

/-- The token of some characters: without the space at the end, too. -/
def tidy (chars : List u8) : List u8 := (squeezed chars).rdropWhile (· = SPACE)

/-- The end of a line has been read up to this character; a different one belongs to it. -/
def afterEnd (last : u8) : List u8 → List u8
  | [] => []
  | ch :: buffer => if ch ≠ last ∧ (ch = CR ∨ ch = LF) then buffer else ch :: buffer

/-- What is left behind a token and its delimiter or line end. -/
def behind (delimiter : u8) (buffer : List u8) : List u8 :=
  match buffer.drop (segment delimiter buffer).length with
  | [] => []
  | ch :: rest => if ch = delimiter then rest else afterEnd ch rest

/-- It is a line end that comes behind the token. -/
def endsLine (delimiter : u8) (buffer : List u8) : Bool :=
  match buffer.drop (segment delimiter buffer).length with
  | [] => false
  | ch :: _ => ch ≠ delimiter

/-- A token in memory, with its terminator. -/
structure Holds (r : (Nat → u8) × Nat) (chars : List u8) : Prop where
  copied : r.2 = chars.length
  token : ∀ i, i < chars.length → r.1 i = chars.getD i 0
  terminator : r.1 chars.length = 0

/-- A space comes behind the last printing character of the token. -/
def Trailing (chars : List u8) : Prop := (squeezed chars).getLast? = some SPACE

instance (chars : List u8) : Decidable (Trailing chars) := inferInstanceAs (Decidable (_ = _))

/-- There is no such space; or it is at the end of a line and there is no room for it; or there is, and
something else than a line end behind. -/
def Fits (t : BufferTok) (tokenBufferSize : Nat) : Prop :=
  t.buffer ≠ [] → t.newline = false → Trailing (segment t.delimiter t.buffer) →
    if endsLine t.delimiter t.buffer then tokenBufferSize - 1 ≤ (tidy (segment t.delimiter t.buffer)).length
    else (tidy (segment t.delimiter t.buffer)).length < tokenBufferSize - 1

/-- What is promised of a call. -/
structure CallRight (t : BufferTok) (token : Nat → u8) (tokenBufferSize : Nat) : Prop where
  consumes : (t.readNext token tokenBufferSize).1 =
    ⟨behind t.delimiter t.buffer, t.delimiter, endsLine t.delimiter t.buffer⟩
  returns : Holds (t.readNext token tokenBufferSize).2
    ((tidy (segment t.delimiter t.buffer)).take (tokenBufferSize - 1))

/-- The characters of a field of a line. Behind the last one there are none. -/
def field (delimiter : u8) : Nat → List u8 → List u8
  | 0, line => segment delimiter line
  | k + 1, line => field delimiter k (line.drop ((segment delimiter line).length + 1))

/-- The first fields of a line, as tokens. -/
def Yields (delimiter : u8) (n : Nat) (line : List u8) (tokens : List ((Nat → u8) × Nat)) : Prop :=
  tokens.length = n ∧ ∀ k (hk : k < tokens.length), Holds tokens[k] ((tidy (field delimiter k line)).take 255)

/-- The buffer is one line after the other, and each round of a loop has the fields of its line. -/
def Lines (program : Nat → u8 × Nat) : Nat → List u8 → List (List ((Nat → u8) × Nat)) → Prop
  | _, buffer, [] => buffer = []
  | k, buffer, tokens :: rounds =>
    ∃ line ends rest, buffer = line ++ ends ++ rest ∧ (∀ c ∈ line, isEnd c = false) ∧
      (∀ c ∈ ends, isEnd c = true) ∧ (ends = [] → rest = []) ∧
      Yields (program k).1 (program k).2 line tokens ∧ Lines program (k + 1) rest rounds

/-- The tokens of so many `operator>>` fit. -/
def ExtractsFit (token : Nat → u8) : Nat → BufferTok → Prop
  | 0, _ => True
  | n + 1, t => Fits t 256 ∧ ExtractsFit token n (t.extract token).1

/-- All tokens of a loop fit. -/
def LoopFits (token : Nat → u8) (program : Nat → u8 × Nat) : Nat → Nat → BufferTok → Prop
  | 0, _, _ => True
  | fuel + 1, k, t => t.buffer ≠ [] → ExtractsFit token (program k).2 (t.index (program k).1) ∧
      LoopFits token program fuel (k + 1) ((t.index (program k).1).extracts token (program k).2).1

end Model

section Spec

/-! ## Characters -/

theorem isEnd_iff {ch : u8} : isEnd ch = true ↔ ch = CR ∨ ch = LF := decide_eq_true_iff

theorem isPrint_iff {ch : u8} : isPrint ch = true ↔ 33 ≤ ch.toNat ∧ ch.toNat ≤ 126 := decide_eq_true_iff

theorem isKept_iff {ch : u8} : isKept ch = true ↔ ch = SPACE ∨ isPrint ch = true := decide_eq_true_iff

theorem not_end_space : isEnd SPACE = false := by decide

theorem not_print_space : isPrint SPACE = false := by decide

/-- The comparison of the source is one with the printing characters. -/
theorem print_iff {ch : u8} : (ch - 33).toNat < 94 ↔ isPrint ch = true := by
  have hch := ch.isLt
  have hsub : (ch - 33).toNat = (2 ^ 8 - 33 + ch.toNat) % 2 ^ 8 := BitVec.toNat_sub ch 33
  rw [isPrint_iff, hsub]
  omega

/-! ## What is squeezed -/

theorem destutter'_snoc {α : Type} (R : α → α → Prop) [DecidableRel R] (l : List α) (b : α) : ∀ a : α,
    (l ++ [b]).destutter' R a =
      if R ((l.destutter' R a).getLastD a) b then l.destutter' R a ++ [b] else l.destutter' R a := by
  induction l with
  | nil =>
    intro a
    rw [List.nil_append, List.destutter'_cons, List.destutter'_nil, List.destutter'_nil]
    rfl
  | cons x l ih =>
    intro a
    rw [List.cons_append, List.destutter'_cons, List.destutter'_cons]
    by_cases hax : R a x
    · rw [if_pos hax, if_pos hax, ih x]
      have hne : l.destutter' R x ≠ [] := List.destutter'_ne_nil l R
      have hlast : (a :: l.destutter' R x).getLastD a = (l.destutter' R x).getLastD x := by
        rw [List.getLastD_cons]
        cases hl : l.destutter' R x with
        | nil => exact absurd hl hne
        | cons y ys => rw [List.getLastD_cons, List.getLastD_cons]
      rw [hlast]
      split <;> rfl
    · rw [if_neg hax, if_neg hax, ih a]

theorem squeezed_of_not_kept (cs : List u8) {ch : u8} (h : isKept ch = false) :
    squeezed (cs ++ [ch]) = squeezed cs := by
  have hnone : [ch].filter isKept = [] := by
    rw [List.filter_cons_of_neg (by rw [h]; exact Bool.false_ne_true), List.filter_nil]
  rw [squeezed, List.filter_append, hnone, List.append_nil, squeezed]

/-- One more character that is kept. -/
theorem squeezed_snoc (cs : List u8) {ch : u8} (h : isKept ch = true) : squeezed (cs ++ [ch]) =
    if ch = SPACE ∧ (squeezed cs).getLast?.getD SPACE = SPACE then squeezed cs
    else squeezed cs ++ [ch] := by
  have hone : [ch].filter isKept = [ch] := by
    rw [List.filter_cons_of_pos h, List.filter_nil]
  unfold squeezed
  rw [List.filter_append, hone, List.dropWhile_append]
  cases hdrop : (cs.filter isKept).dropWhile (· = SPACE) with
  | nil =>
    rw [List.isEmpty_nil, if_pos rfl, List.dropWhile_cons]
    by_cases hspace : ch = SPACE
    · rw [if_pos (decide_eq_true hspace), if_pos ⟨hspace, rfl⟩]
      rfl
    · rw [if_neg (fun hd => hspace (of_decide_eq_true hd)), if_neg fun hd => hspace hd.1]
      rfl
  | cons a l =>
    rw [List.isEmpty_cons, if_neg Bool.false_ne_true, List.cons_append, List.destutter_cons',
      List.destutter_cons', destutter'_snoc]
    have hne : l.destutter' (fun a b => ¬(a = SPACE ∧ b = SPACE)) a ≠ [] := List.destutter'_ne_nil l _
    have hlast : (l.destutter' (fun a b => ¬(a = SPACE ∧ b = SPACE)) a).getLastD a =
        (l.destutter' (fun a b => ¬(a = SPACE ∧ b = SPACE)) a).getLast?.getD SPACE := by
      rw [List.getLastD_eq_getLast?, List.getLast?_eq_some_getLast hne]
      rfl
    rw [hlast]
    split <;> split <;> tauto

/-- No two spaces are next to each other. -/
theorem squeezed_isChain (cs : List u8) :
    (squeezed cs).IsChain fun a b => ¬(a = SPACE ∧ b = SPACE) :=
  List.isChain_destutter _ _

/-- The token is what is squeezed, without a space at the end. -/
theorem tidy_eq (cs : List u8) :
    tidy cs = if Trailing cs then (squeezed cs).dropLast else squeezed cs := by
  have hchain := squeezed_isChain cs
  unfold tidy
  by_cases ht : Trailing cs
  · rw [if_pos ht]
    obtain ⟨l, hl⟩ := List.getLast?_eq_some_iff.mp ht
    rw [hl] at hchain ⊢
    have hspace : decide (SPACE = SPACE) = true := decide_eq_true rfl
    rw [List.dropLast_concat, List.rdropWhile_concat_pos (fun a => decide (a = SPACE)) l SPACE hspace]
    refine List.rdropWhile_eq_self_iff.mpr fun hne hlast => ?_
    have hpair := (List.isChain_append.mp hchain).2.2 (l.getLast hne) (by simp [List.getLast?_eq_some_getLast hne])
      SPACE rfl
    exact hpair ⟨of_decide_eq_true hlast, rfl⟩
  · rw [if_neg ht]
    refine List.rdropWhile_eq_self_iff.mpr fun hne hlast => ht ?_
    unfold Trailing
    rw [List.getLast?_eq_some_getLast hne, of_decide_eq_true hlast]

theorem length_tidy (cs : List u8) :
    (tidy cs).length = (squeezed cs).length - if Trailing cs then 1 else 0 := by
  rw [tidy_eq]
  split
  · rw [List.length_dropLast]
  · rw [Nat.sub_zero]

theorem tidy_getD (cs : List u8) {i : Nat} (hi : i < (tidy cs).length) :
    (tidy cs).getD i 0 = (squeezed cs).getD i 0 := by
  rw [tidy_eq] at hi ⊢
  split at hi
  · next htrailing =>
    rw [if_pos htrailing]
    rw [List.length_dropLast] at hi
    rw [List.getD_eq_getElem?_getD, List.getD_eq_getElem?_getD, List.getElem?_dropLast, if_pos hi]
  · next htrailing => rw [if_neg htrailing]

/-! ## The loop of `readNext` -/

/-- The variables after some characters without a line end. -/
structure Scanned (tokenBufferSize : Nat) (cs : List u8) (s : Scan) : Prop where
  seen : s.seenNonSpace = true ↔ squeezed cs ≠ []
  last : s.last = (squeezed cs).getLast?.getD 0
  copied : s.copied = min (squeezed cs).length (tokenBufferSize - 1)
  token : ∀ i, i < s.copied → s.token i = (squeezed cs).getD i 0
  newline : s.newline = false

section Scanning

variable {tokenBufferSize : Nat} {cs : List u8} {s : Scan}

theorem Scan.copy_eq (hpos : 1 ≤ tokenBufferSize) (hlt : tokenBufferSize < 2 ^ 32) (s : Scan) (ch : u8) :
    s.copy tokenBufferSize ch = if s.copied < tokenBufferSize - 1 then
      ⟨s.seenNonSpace, s.last, s.copied + 1, Function.update s.token s.copied ch, s.newline⟩ else s := by
  have hsize : (tokenBufferSize + 2 ^ 32 - 1) % 2 ^ 32 = tokenBufferSize - 1 := by omega
  unfold Scan.copy
  rw [hsize]

theorem Scan.copy_flags (hpos : 1 ≤ tokenBufferSize) (hlt : tokenBufferSize < 2 ^ 32) (s : Scan) (ch : u8) :
    (s.copy tokenBufferSize ch).seenNonSpace = s.seenNonSpace ∧
      (s.copy tokenBufferSize ch).newline = s.newline := by
  rw [Scan.copy_eq hpos hlt]
  split <;> exact ⟨rfl, rfl⟩

/-- Copying one more character that is squeezed. -/
theorem Scanned.copy (h : Scanned tokenBufferSize cs s) (hpos : 1 ≤ tokenBufferSize)
    (hlt : tokenBufferSize < 2 ^ 32) {ch : u8} (hsq : squeezed (cs ++ [ch]) = squeezed cs ++ [ch])
    {s' : Scan} (hs' : s.copy tokenBufferSize ch = s') :
    Scanned tokenBufferSize (cs ++ [ch]) ⟨true, ch, s'.copied, s'.token, false⟩ := by
  have hcopied := h.copied
  rw [Scan.copy_eq hpos hlt] at hs'
  refine ⟨?_, ?_, ?_, ?_, rfl⟩
  · rw [hsq]
    exact ⟨fun _ => List.append_ne_nil_of_right_ne_nil _ (List.cons_ne_nil _ _), fun _ => rfl⟩
  · rw [hsq, List.getLast?_append, List.getLast?_singleton, Option.some_or]
    rfl
  · rw [hsq, List.length_append, List.length_singleton, ← hs']
    split
    · dsimp only
      omega
    · dsimp only
      omega
  · rw [hsq, ← hs']
    split
    · next hroom =>
      dsimp only
      intro i hi
      by_cases hlast : i = s.copied
      · subst hlast
        have hlen : s.copied = (squeezed cs).length := by omega
        rw [Function.update_self, List.getD_append_right _ _ _ _ hlen.ge, hlen, Nat.sub_self]
        rfl
      · rw [Function.update_of_ne hlast, h.token i (by omega), List.getD_append _ _ _ _ (by omega)]
    · dsimp only
      intro i hi
      rw [h.token i hi, List.getD_append _ _ _ _ (by omega)]

theorem Scanned.congr (h : Scanned tokenBufferSize cs s) {cs' : List u8}
    (he : squeezed cs' = squeezed cs) : Scanned tokenBufferSize cs' s := by
  refine ⟨?_, ?_, ?_, ?_, h.newline⟩
  · rw [he]
    exact h.seen
  · rw [he]
    exact h.last
  · rw [he]
    exact h.copied
  · rw [he]
    exact h.token

theorem Scanned.consume (h : Scanned tokenBufferSize cs s) (hpos : 1 ≤ tokenBufferSize)
    (hlt : tokenBufferSize < 2 ^ 32) {ch : u8} (hend : isEnd ch = false) :
    Scanned tokenBufferSize (cs ++ [ch]) (s.consume tokenBufferSize ch) := by
  obtain ⟨hseen, hnewline⟩ := Scan.copy_flags hpos hlt s ch
  rw [h.newline] at hnewline
  unfold Scan.consume
  generalize hs' : s.copy tokenBufferSize ch = s' at hseen hnewline ⊢
  by_cases hspace : ch = SPACE
  · rw [if_pos hspace]
    have hsq := squeezed_snoc cs (isKept_iff.mpr (.inl hspace))
    have hlast : (squeezed cs).getLast?.getD SPACE = SPACE ↔ ¬(s.seenNonSpace = true ∧ s.last ≠ SPACE) := by
      rw [h.seen, h.last]
      cases hl : (squeezed cs).getLast? with
      | none =>
        rw [List.getLast?_eq_none_iff.mp hl]
        simp
      | some c =>
        have hne : squeezed cs ≠ [] := fun hnil => by
          rw [hnil] at hl
          cases hl
        simp [hne]
    by_cases hgo : s.seenNonSpace = true ∧ s.last ≠ SPACE
    · rw [if_neg fun hd => hlast.mp hd.2 hgo] at hsq
      rw [if_pos hgo]
      rw [hgo.1] at hseen
      have hcopy := h.copy hpos hlt hsq hs'
      dsimp only
      rw [hseen, hnewline]
      exact hcopy
    · rw [if_pos ⟨hspace, hlast.mpr hgo⟩] at hsq
      rw [if_neg hgo]
      exact h.congr hsq
  · have hne : ¬(ch = CR ∨ ch = LF) := fun he => by
      rw [isEnd_iff.mpr he] at hend
      cases hend
    rw [if_neg hspace, if_neg hne]
    by_cases hprint : isPrint ch = true
    · rw [if_pos (print_iff.mpr hprint)]
      have hsq := squeezed_snoc cs (isKept_iff.mpr (.inr hprint))
      rw [if_neg fun hd => hspace hd.1] at hsq
      have hcopy := h.copy hpos hlt hsq hs'
      dsimp only
      rw [hnewline]
      exact hcopy
    · rw [if_neg fun hd => hprint (print_iff.mp hd)]
      have hkept : isKept ch = false := by
        rw [Bool.eq_false_iff]
        exact fun hk => (isKept_iff.mp hk).elim hspace hprint
      have hsq := squeezed_of_not_kept cs hkept
      exact h.congr hsq

/-- Before there is anything else, a space is not a delimiter, and nothing is copied. -/
theorem readLoop_lead {rest : List u8} (hlead : ∀ c ∈ cs, isPrint c = false ∧ isEnd c = false)
    (hseen : s.seenNonSpace = false) (hnewline : s.newline = false) :
    readLoop SPACE tokenBufferSize (cs ++ rest) s = readLoop SPACE tokenBufferSize rest s := by
  induction cs with
  | nil => rfl
  | cons c cs ih =>
    obtain ⟨hprint, hend⟩ := hlead c List.mem_cons_self
    have hkeep : s.consume tokenBufferSize c = s := by
      have hne : ¬(c = CR ∨ c = LF) := fun he => by
        rw [isEnd_iff.mpr he] at hend
        cases hend
      have hnot : ¬(c - 33).toNat < 94 := fun hd => by
        rw [print_iff.mp hd] at hprint
        cases hprint
      unfold Scan.consume
      rw [hseen, if_neg hne, if_neg hnot]
      split
      · exact if_neg fun hd => Bool.false_ne_true hd.1
      · rfl
    rw [List.cons_append, readLoop, hnewline, if_neg Bool.false_ne_true, hseen, if_neg, hkeep]
    · exact ih fun c hc => hlead c (List.mem_cons_of_mem _ hc)
    · exact fun hd => hd.2.elim (fun hne => hne rfl) Bool.false_ne_true

/-- Up to the next delimiter or line end, the loop goes through the characters. -/
theorem readLoop_body {delimiter : u8} (rest : List u8) (hpos : 1 ≤ tokenBufferSize)
    (hlt : tokenBufferSize < 2 ^ 32) (body : List u8) :
    ∀ (cs : List u8) (s : Scan), Scanned tokenBufferSize cs s →
      (∀ c ∈ body, c ≠ delimiter ∧ isEnd c = false) →
      ∃ s', Scanned tokenBufferSize (cs ++ body) s' ∧
        readLoop delimiter tokenBufferSize (body ++ rest) s = readLoop delimiter tokenBufferSize rest s' := by
  induction body with
  | nil =>
    intro cs s hs _
    exact ⟨s, by rwa [List.append_nil], rfl⟩
  | cons c body ih =>
    intro cs s hs hbody
    obtain ⟨hne, hend⟩ := hbody c List.mem_cons_self
    obtain ⟨s', hs', hrun⟩ := ih (cs ++ [c]) _ (hs.consume hpos hlt hend)
      fun c hc => hbody c (List.mem_cons_of_mem _ hc)
    refine ⟨s', ?_, ?_⟩
    · rwa [List.append_assoc] at hs'
    · rw [List.cons_append, readLoop, hs.newline, if_neg Bool.false_ne_true, if_neg fun hd => hne hd.1]
      exact hrun

end Scanning

/-! ## Segments -/

section Segments

variable (delimiter : u8) (buffer : List u8)

theorem drop_takeWhile_length {α : Type} (p : α → Bool) (l : List α) :
    l.drop (l.takeWhile p).length = l.dropWhile p := by
  have hsplit := List.takeWhile_append_dropWhile (p := p) (l := l)
  have hdrop : (l.takeWhile p ++ l.dropWhile p).drop (l.takeWhile p).length = l.dropWhile p :=
    List.drop_left
  rwa [hsplit] at hdrop

/-- What the loop goes through without the leading characters. -/
def body (delimiter : u8) (buffer : List u8) : List u8 :=
  (buffer.drop (if delimiter = SPACE then buffer.takeWhile fun c => !isPrint c && !isEnd c else []).length).takeWhile
    fun c => c != delimiter && !isEnd c

def lead (delimiter : u8) (buffer : List u8) : List u8 :=
  if delimiter = SPACE then buffer.takeWhile fun c => !isPrint c && !isEnd c else []

theorem segment_eq : segment delimiter buffer = lead delimiter buffer ++ body delimiter buffer := rfl

theorem lead_append : lead delimiter buffer ++ buffer.drop (lead delimiter buffer).length = buffer := by
  unfold lead
  split
  · rw [drop_takeWhile_length]
    exact List.takeWhile_append_dropWhile
  · rfl

theorem mem_lead : ∀ c ∈ lead delimiter buffer, isPrint c = false ∧ isEnd c = false := by
  intro c hc
  unfold lead at hc
  split at hc
  · simpa using List.mem_takeWhile_imp hc
  · exact absurd hc List.not_mem_nil

theorem mem_body : ∀ c ∈ body delimiter buffer, c ≠ delimiter ∧ isEnd c = false := by
  intro c hc
  simpa using List.mem_takeWhile_imp hc

theorem segment_append :
    segment delimiter buffer ++ buffer.drop (segment delimiter buffer).length = buffer := by
  rw [segment_eq, List.length_append, List.append_assoc, ← List.drop_drop]
  conv_rhs => rw [← lead_append delimiter buffer]
  congr 1
  have hsplit := List.takeWhile_append_dropWhile (p := fun c => c != delimiter && !isEnd c)
    (l := buffer.drop (lead delimiter buffer).length)
  rw [← drop_takeWhile_length] at hsplit
  exact hsplit

variable {delimiter buffer}

/-- The character behind a segment. -/
theorem drop_segment {c : u8} {rest : List u8} (h : buffer.drop (segment delimiter buffer).length = c :: rest) :
    (c = delimiter ∨ isEnd c = true) ∧
      (c = delimiter → delimiter = SPACE → ∃ a l, body delimiter buffer = a :: l ∧ isPrint a = true) := by
  rw [segment_eq, List.length_append, ← List.drop_drop] at h
  have hdrop : (buffer.drop (lead delimiter buffer).length).dropWhile
      (fun c => c != delimiter && !isEnd c) = c :: rest := by
    rw [← h, ← drop_takeWhile_length]
    rfl
  refine ⟨?_, fun hc hspace => ?_⟩
  · have hhead := List.head?_dropWhile_not (fun c => c != delimiter && !isEnd c)
      (buffer.drop (lead delimiter buffer).length)
    rw [hdrop] at hhead
    by_contra hnone
    rw [not_or] at hnone
    simp [hnone.1, hnone.2] at hhead
  · have hstart : ∀ d, (buffer.drop (lead delimiter buffer).length).head? = some d →
        isPrint d = true ∨ isEnd d = true := by
      intro d hd
      have hhead := List.head?_dropWhile_not (fun c => !isPrint c && !isEnd c) buffer
      unfold lead at hd
      rw [if_pos hspace, drop_takeWhile_length] at hd
      rw [hd] at hhead
      by_contra hnone
      rw [not_or] at hnone
      simp [hnone.1, hnone.2] at hhead
    cases hbody : body delimiter buffer with
    | nil =>
      rw [hbody, List.length_nil, List.drop_zero] at h
      subst hc
      rcases hstart c (by rw [h]; rfl) with hp | he
      · rw [hspace, not_print_space] at hp
        cases hp
      · rw [hspace, not_end_space] at he
        cases he
    | cons a l =>
      refine ⟨a, l, rfl, ?_⟩
      have hmem := mem_body delimiter buffer a (by rw [hbody]; exact List.mem_cons_self)
      have hfirst : (buffer.drop (lead delimiter buffer).length).head? = some a := by
        have hpre : body delimiter buffer <+: buffer.drop (lead delimiter buffer).length :=
          List.takeWhile_prefix _
        obtain ⟨t, ht⟩ := hpre
        rw [← ht, hbody]
        rfl
      exact (hstart a hfirst).resolve_right fun he => by rw [hmem.2] at he; cases he

end Segments

/-! ## `readNext` -/

section ReadNext

variable {t : BufferTok} {token : Nat → u8} {tokenBufferSize : Nat}

theorem scanned_start (tokenBufferSize : Nat) (token : Nat → u8) :
    Scanned tokenBufferSize [] ⟨false, 0, 0, token, false⟩ :=
  ⟨⟨fun h => absurd h Bool.false_ne_true, fun h => absurd rfl h⟩, rfl, (Nat.zero_min _).symm,
    fun _ hi => absurd hi (Nat.not_lt_zero _), rfl⟩

/-- The leading characters leave nothing. -/
theorem scanned_lead {cs : List u8} {s : Scan} (h : Scanned tokenBufferSize [] s)
    (hcs : ∀ c ∈ cs, isPrint c = false ∧ isEnd c = false) : Scanned tokenBufferSize cs s := by
  refine h.congr ?_
  unfold squeezed
  have hdrop : (cs.filter isKept).dropWhile (fun a => decide (a = SPACE)) = [] := by
    rw [List.dropWhile_eq_nil_iff]
    intro c hc
    obtain ⟨hmem, hkept⟩ := List.mem_filter.mp hc
    refine decide_eq_true ((isKept_iff.mp hkept).resolve_right fun hp => ?_)
    rw [(hcs c hmem).1] at hp
    cases hp
  rw [hdrop]
  rfl

theorem squeezed_ne_nil {cs : List u8} {a : u8} (ha : a ∈ cs) (hp : isPrint a = true) : squeezed cs ≠ [] := by
  intro hnil
  unfold squeezed at hnil
  cases hdrop : (cs.filter isKept).dropWhile (fun a => decide (a = SPACE)) with
  | nil =>
    have hall := List.dropWhile_eq_nil_iff.mp hdrop a (List.mem_filter.mpr ⟨ha, isKept_iff.mpr (.inr hp)⟩)
    rw [of_decide_eq_true hall, not_print_space] at hp
    cases hp
  | cons x xs =>
    rw [hdrop, List.destutter_cons'] at hnil
    exact List.destutter'_ne_nil _ _ hnil

/-- What the loop leaves, and the variables at its end. -/
theorem readLoop_spec (hpos : 1 ≤ tokenBufferSize) (hlt : tokenBufferSize < 2 ^ 32) (delimiter : u8)
    (buffer : List u8) (token : Nat → u8) :
    ∃ s s', Scanned tokenBufferSize (segment delimiter buffer) s ∧
      readLoop delimiter tokenBufferSize buffer ⟨false, 0, 0, token, false⟩ = (behind delimiter buffer, s') ∧
      s'.newline = endsLine delimiter buffer ∧ s'.copied = s.copied ∧ s'.token = s.token ∧
      if endsLine delimiter buffer then isEnd s'.last = true else s'.last = s.last := by
  set rest := buffer.drop (segment delimiter buffer).length with hrest
  have hsplit : lead delimiter buffer ++ (body delimiter buffer ++ rest) = buffer := by
    rw [← List.append_assoc]
    exact segment_append delimiter buffer
  obtain ⟨s, hs, hrun⟩ := readLoop_body rest hpos hlt (body delimiter buffer)
    (lead delimiter buffer) _ (scanned_lead (scanned_start tokenBufferSize token) (mem_lead delimiter buffer))
    (mem_body delimiter buffer)
  have hrun' : readLoop delimiter tokenBufferSize buffer ⟨false, 0, 0, token, false⟩ =
      readLoop delimiter tokenBufferSize rest s := by
    rw [← hrun]
    conv_lhs => rw [← hsplit]
    by_cases hspace : delimiter = SPACE
    · subst hspace
      exact readLoop_lead (mem_lead _ _) rfl rfl
    · have hnone : lead delimiter buffer = [] := if_neg hspace
      rw [hnone]
      rfl
  rw [hrun']
  cases hcase : rest with
  | nil =>
    have hbehind : behind delimiter buffer = [] := by
      unfold behind
      rw [← hrest, hcase]
    have hends : endsLine delimiter buffer = false := by
      unfold endsLine
      rw [← hrest, hcase]
    rw [hbehind, hends]
    exact ⟨s, s, hs, rfl, hs.newline, rfl, rfl, rfl⟩
  | cons c rest' =>
    obtain ⟨hstop, hspace⟩ := drop_segment (hrest ▸ hcase)
    have hbehind : behind delimiter buffer = if c = delimiter then rest' else afterEnd c rest' := by
      unfold behind
      rw [← hrest, hcase]
    have hends : endsLine delimiter buffer = decide (c ≠ delimiter) := by
      unfold endsLine
      rw [← hrest, hcase]
    rw [hbehind, hends, readLoop, hs.newline, if_neg Bool.false_ne_true]
    by_cases hc : c = delimiter
    · have hgo : delimiter ≠ SPACE ∨ s.seenNonSpace = true := by
        by_cases hd : delimiter = SPACE
        · obtain ⟨a, l, hbody, hprint⟩ := hspace hc hd
          refine .inr (hs.seen.mpr (squeezed_ne_nil (a := a) ?_ hprint))
          rw [hbody]
          exact List.mem_append_right _ List.mem_cons_self
        · exact .inl hd
      have hflag : decide (c ≠ delimiter) = false := decide_eq_false (not_not.mpr hc)
      rw [if_pos ⟨hc, hgo⟩, if_pos hc, hflag]
      exact ⟨s, s, hs, rfl, hs.newline, rfl, rfl, rfl⟩
    · have hend := hstop.resolve_left hc
      have hnot : c ≠ SPACE := fun he => by
        rw [he, not_end_space] at hend
        cases hend
      have hconsume : s.consume tokenBufferSize c =
          ⟨s.seenNonSpace, c, s.copied, s.token, true⟩ := by
        unfold Scan.consume
        rw [if_neg hnot, if_pos (isEnd_iff.mp hend)]
      have hflag : decide (c ≠ delimiter) = true := decide_eq_true hc
      have hrest' : readLoop delimiter tokenBufferSize rest' ⟨s.seenNonSpace, c, s.copied, s.token, true⟩ =
          (afterEnd c rest', ⟨s.seenNonSpace, c, s.copied, s.token, true⟩) := by
        cases rest' with
        | nil => rfl
        | cons c' rest'' => rfl
      rw [if_neg fun hd => hc hd.1, if_neg hc, hconsume, hflag, hrest']
      exact ⟨s, _, hs, rfl, rfl, rfl, rfl, hend⟩

/-- A call on a line in progress. -/
theorem readNext_eq (hbuffer : t.buffer ≠ []) (hnewline : t.newline = false) {left : List u8} {s : Scan}
    (hrun : readLoop t.delimiter tokenBufferSize t.buffer ⟨false, 0, 0, token, false⟩ = (left, s)) :
    t.readNext token tokenBufferSize =
      let copied := if s.last = SPACE then (s.copied + 2 ^ 32 - 1) % 2 ^ 32 else s.copied
      (⟨left, t.delimiter, s.newline⟩, Function.update s.token copied 0, copied) := by
  have hgo : ¬(t.buffer = [] ∨ t.newline = true) := by
    rw [hnewline]
    exact not_or.mpr ⟨hbuffer, Bool.false_ne_true⟩
  unfold BufferTok.readNext
  rw [if_neg hgo, hrun]

theorem segment_nil (delimiter : u8) : segment delimiter [] = [] := by
  unfold segment
  split <;> rfl

/-- What a call consumes. -/
theorem readNext_consumes (hpos : 1 ≤ tokenBufferSize) (hlt : tokenBufferSize < 2 ^ 32)
    (hnewline : t.newline = false) (token : Nat → u8) :
    (t.readNext token tokenBufferSize).1 =
      ⟨behind t.delimiter t.buffer, t.delimiter, endsLine t.delimiter t.buffer⟩ := by
  by_cases hbuffer : t.buffer = []
  · have hrun : t.readNext token tokenBufferSize = (t, Function.update token 0 0, 0) := if_pos (.inl hbuffer)
    have hbehind : behind t.delimiter [] = [] := by
      unfold behind
      rw [segment_nil]
      rfl
    have hends : endsLine t.delimiter [] = false := by
      unfold endsLine
      rw [segment_nil]
      rfl
    rw [hrun, hbuffer, hbehind, hends, ← hbuffer, ← hnewline]
  · obtain ⟨s, s', -, hrun, hflag, -⟩ := readLoop_spec hpos hlt t.delimiter t.buffer token
    rw [readNext_eq hbuffer hnewline hrun, hflag]

/-- Up to the number of what was copied, the token is in memory, and only that number matters. -/
theorem holds_iff {cs : List u8} {s : Scan} (hs : Scanned tokenBufferSize cs s) {k : Nat} :
    Holds (Function.update s.token k 0, k) ((tidy cs).take (tokenBufferSize - 1)) ↔
      k = min (tokenBufferSize - 1) (tidy cs).length := by
  have hlen := List.length_take (i := tokenBufferSize - 1) (l := tidy cs)
  have hcopied := hs.copied
  have hle := length_tidy cs
  constructor
  · exact fun h => h.copied.trans hlen
  · intro hk
    refine ⟨hk.trans hlen.symm, fun i hi => ?_, ?_⟩
    · rw [hlen] at hi
      have htake : ((tidy cs).take (tokenBufferSize - 1)).getD i 0 = (tidy cs).getD i 0 := by
        rw [List.getD_eq_getElem?_getD, List.getElem?_take_of_lt (by omega), ← List.getD_eq_getElem?_getD]
      dsimp only
      rw [Function.update_of_ne (by omega), hs.token i (by omega), htake, tidy_getD cs (by omega)]
    · dsimp only
      rw [hlen, ← hk, Function.update_self]

/-- What a call returns is the token exactly if it fits. -/
theorem readNext_iff (hpos : 1 ≤ tokenBufferSize) (hlt : tokenBufferSize < 2 ^ 32)
    (hbuffer : t.buffer ≠ []) (hnewline : t.newline = false) (token : Nat → u8) :
    Holds (t.readNext token tokenBufferSize).2
      ((tidy (segment t.delimiter t.buffer)).take (tokenBufferSize - 1)) ↔ Fits t tokenBufferSize := by
  obtain ⟨s, s', hs, hrun, hflag, hcopied, htoken, hlast⟩ :=
    readLoop_spec hpos hlt t.delimiter t.buffer token
  rw [readNext_eq hbuffer hnewline hrun, hcopied, htoken]
  dsimp only
  rw [holds_iff hs, hs.copied]
  have hlen := length_tidy (segment t.delimiter t.buffer)
  have htrailing : Trailing (segment t.delimiter t.buffer) → 0 < (squeezed (segment t.delimiter t.buffer)).length := by
    intro ht
    refine List.length_pos_of_ne_nil fun hnil => ?_
    unfold Trailing at ht
    rw [hnil] at ht
    cases ht
  have hfits : Fits t tokenBufferSize ↔ (Trailing (segment t.delimiter t.buffer) →
      if endsLine t.delimiter t.buffer then tokenBufferSize - 1 ≤ (tidy (segment t.delimiter t.buffer)).length
      else (tidy (segment t.delimiter t.buffer)).length < tokenBufferSize - 1) :=
    ⟨fun h => h hbuffer hnewline, fun h _ _ => h⟩
  rw [hfits]
  by_cases hends : endsLine t.delimiter t.buffer = true
  · rw [if_pos hends] at hlast
    have hnot : s'.last ≠ SPACE := fun he => by
      rw [he, not_end_space] at hlast
      cases hlast
    rw [if_neg hnot, if_pos hends]
    split at hlen
    · next ht =>
      have := htrailing ht
      simp only [ht, true_imp_iff]
      omega
    · next ht =>
      simp only [ht, false_imp_iff, iff_true]
      omega
  · rw [if_neg hends] at hlast
    have hspace : s'.last = SPACE ↔ Trailing (segment t.delimiter t.buffer) := by
      rw [hlast, hs.last, Trailing]
      cases (squeezed (segment t.delimiter t.buffer)).getLast? with
      | none => decide
      | some c => exact Option.some_inj.symm
    rw [if_neg hends]
    split at hlen
    · next ht =>
      have := htrailing ht
      rw [if_pos (hspace.mpr ht)]
      simp only [ht, true_imp_iff]
      omega
    · next ht =>
      rw [if_neg fun hd => ht (hspace.mp hd)]
      simp only [ht, false_imp_iff, iff_true]
      omega

/-- The token of no characters. -/
theorem holds_nil (token : Nat → u8) (n : Nat) :
    Holds (Function.update token 0 0, 0) ((tidy []).take n) := by
  have hnil : (tidy []).take n = [] := List.take_nil
  rw [hnil]
  exact ⟨rfl, fun i hi => absurd hi (Nat.not_lt_zero _), rfl⟩

/-- A call is right exactly if its token fits. -/
theorem callRight_iff (hpos : 1 ≤ tokenBufferSize) (hlt : tokenBufferSize < 2 ^ 32)
    (hnewline : t.newline = false) (token : Nat → u8) :
    CallRight t token tokenBufferSize ↔ Fits t tokenBufferSize := by
  have hconsumes := readNext_consumes hpos hlt hnewline token
  by_cases hbuffer : t.buffer = []
  · have hrun : t.readNext token tokenBufferSize = (t, Function.update token 0 0, 0) := if_pos (.inl hbuffer)
    refine ⟨fun _ h => absurd hbuffer h, fun _ => ⟨hconsumes, ?_⟩⟩
    rw [hrun, hbuffer, segment_nil]
    exact holds_nil token _
  · rw [← readNext_iff hpos hlt hbuffer hnewline token]
    exact ⟨fun h => h.returns, fun h => ⟨hconsumes, h⟩⟩

end ReadNext

/-! ## Lines -/

/-- Where a tokenizer is in a line: what is left of it, and the line end and all behind. -/
inductive InLine (t : BufferTok) : List u8 → List u8 → Prop where
  | progress (line tail : List u8) (hnewline : t.newline = false) (hbuffer : t.buffer = line ++ tail)
      (hline : ∀ c ∈ line, isEnd c = false) (htail : ∀ c, tail.head? = some c → isEnd c = true) :
      InLine t line tail
  | ended (ends : List u8) (hnewline : t.newline = true) (hends : ∀ c ∈ ends, isEnd c = true)
      (hne : ends ≠ []) : InLine t [] (ends ++ t.buffer)

section Loops

variable {t : BufferTok} {line tail : List u8} {delimiter : u8}

theorem takeWhile_append_of_head {p : u8 → Bool} (hp : ∀ c, isEnd c = true → p c = false)
    (htail : ∀ c, tail.head? = some c → isEnd c = true) (l : List u8) :
    (l ++ tail).takeWhile p = l.takeWhile p := by
  induction l with
  | nil =>
    cases tail with
    | nil => rfl
    | cons c tail =>
      rw [List.nil_append, List.takeWhile_cons, hp c (htail c rfl)]
      rfl
  | cons a l ih => rw [List.cons_append, List.takeWhile_cons, List.takeWhile_cons, ih]

/-- A segment does not go over the end of the line. -/
theorem segment_line (htail : ∀ c, tail.head? = some c → isEnd c = true) :
    segment delimiter (line ++ tail) = segment delimiter line := by
  have hlead : lead delimiter (line ++ tail) = lead delimiter line := by
    unfold lead
    split
    · exact takeWhile_append_of_head (fun c hc => by rw [hc, Bool.not_true, Bool.and_false]) htail line
    · rfl
  have hle : (lead delimiter line).length ≤ line.length := by
    have := congrArg List.length (lead_append delimiter line)
    rw [List.length_append] at this
    omega
  have hbody : body delimiter (line ++ tail) = body delimiter line := by
    have hdrop : (line ++ tail).drop (lead delimiter line).length =
        line.drop (lead delimiter line).length ++ tail := List.drop_append_of_le_length hle
    show ((line ++ tail).drop (lead delimiter (line ++ tail)).length).takeWhile _ =
      (line.drop (lead delimiter line).length).takeWhile _
    rw [hlead, hdrop]
    exact takeWhile_append_of_head (fun c hc => by rw [hc, Bool.not_true, Bool.and_false]) htail _
  rw [segment_eq, segment_eq, hlead, hbody]

theorem segment_length_le (delimiter : u8) (line : List u8) :
    (segment delimiter line).length ≤ line.length := by
  have := congrArg List.length (segment_append delimiter line)
  rw [List.length_append] at this
  omega

/-- One more character of a line end, or none. -/
theorem afterEnd_suffix (last : u8) (buffer : List u8) :
    ∃ ends : List u8, (∀ c ∈ ends, isEnd c = true) ∧ buffer = ends ++ afterEnd last buffer := by
  cases buffer with
  | nil => exact ⟨[], fun _ hc => absurd hc List.not_mem_nil, rfl⟩
  | cons c buffer =>
    rw [afterEnd]
    split
    · next hpair =>
      exact ⟨[c], fun d hd => List.mem_singleton.mp hd ▸ isEnd_iff.mpr hpair.2, rfl⟩
    · exact ⟨[], fun _ hc => absurd hc List.not_mem_nil, rfl⟩

/-- A step within a line: the next token, and the rest of the line. -/
theorem InLine.extract (h : InLine t line tail) (hdelimiter : isEnd t.delimiter = false) (token : Nat → u8) :
    InLine (t.extract token).1 (line.drop ((segment t.delimiter line).length + 1)) tail ∧
      (t.extract token).1.delimiter = t.delimiter ∧
      (Fits t 256 → Holds (t.extract token).2 ((tidy (segment t.delimiter line)).take 255)) := by
  have hsize : 1 ≤ 256 := by decide
  cases h with
  | ended ends hnewline hends hne =>
    have hrun : t.extract token = (t, Function.update token 0 0, 0) := if_pos (.inr hnewline)
    rw [hrun, segment_nil]
    exact ⟨.ended ends hnewline hends hne, rfl, fun _ => holds_nil token 255⟩
  | progress _ _ hnewline hbuffer hline htail =>
    have hsegment : segment t.delimiter t.buffer = segment t.delimiter line := by
      rw [hbuffer]
      exact segment_line htail
    have hrun : (t.extract token).1 = _ := readNext_consumes hsize (by decide) hnewline token
    refine ⟨?_, by rw [hrun], fun hfits => ?_⟩
    · rw [hrun]
      have hle := segment_length_le t.delimiter line
      have hdrop : t.buffer.drop (segment t.delimiter t.buffer).length =
          line.drop (segment t.delimiter line).length ++ tail := by
        rw [hsegment, hbuffer, List.drop_append_of_le_length hle]
      have hrest : line.drop ((segment t.delimiter line).length + 1) =
          (line.drop (segment t.delimiter line).length).drop 1 := by
        rw [List.drop_drop]
      rw [hrest]
      unfold behind endsLine
      rw [hdrop]
      cases hline' : line.drop (segment t.delimiter line).length with
      | cons c rest =>
        -- a delimiter in the line
        have hmem : ∀ d ∈ c :: rest, isEnd d = false := fun d hd =>
          hline d (List.mem_of_mem_drop (hline' ▸ hd))
        have hc : c = t.delimiter := by
          refine (drop_segment hline').1.resolve_right fun hend => ?_
          rw [hmem c List.mem_cons_self] at hend
          cases hend
        rw [List.cons_append]
        dsimp only
        rw [if_pos hc, decide_eq_false (not_not.mpr hc)]
        exact .progress rest tail rfl rfl (fun d hd => hmem d (List.mem_cons_of_mem _ hd)) htail
      | nil =>
        rw [List.nil_append, List.drop_nil]
        cases tail with
        | nil => exact .progress [] [] rfl rfl (fun _ hd => absurd hd List.not_mem_nil) htail
        | cons c tail =>
          -- the line end
          have hend : isEnd c = true := htail c rfl
          have hc : c ≠ t.delimiter := fun he => by
            rw [he, hdelimiter] at hend
            cases hend
          dsimp only
          rw [if_neg hc, decide_eq_true hc]
          obtain ⟨ends, hends, htail'⟩ := afterEnd_suffix c tail
          have hsplit : c :: tail = (c :: ends) ++ afterEnd c tail := by
            rw [List.cons_append, ← htail']
          conv => enter [3]; rw [hsplit]
          refine .ended (c :: ends) rfl (fun d hd => ?_) (List.cons_ne_nil _ _)
          rcases List.mem_cons.mp hd with rfl | hd
          · exact hend
          · exact hends d hd
    · have := ((callRight_iff hsize (by decide) hnewline token).mpr hfits).returns
      rwa [hsegment] at this

/-- What `operator[]` skips from a line end on. -/
theorem skipLine_ends (buffer : List u8) : ∀ last, ∃ ends : List u8, (∀ c ∈ ends, isEnd c = true) ∧
    buffer = ends ++ skipLine true last buffer := by
  induction buffer with
  | nil => exact fun last => ⟨[], fun _ hc => absurd hc List.not_mem_nil, rfl⟩
  | cons c buffer ih =>
    intro last
    rw [skipLine]
    by_cases hend : c = CR ∨ c = LF
    · rw [if_pos hend]
      split
      · exact ⟨[c], fun d hd => List.mem_singleton.mp hd ▸ isEnd_iff.mpr hend, rfl⟩
      · obtain ⟨ends, hends, hsplit⟩ := ih c
        refine ⟨c :: ends, fun d hd => ?_, ?_⟩
        · rcases List.mem_cons.mp hd with rfl | hd
          · exact isEnd_iff.mpr hend
          · exact hends d hd
        · rw [List.cons_append, ← hsplit]
    · rw [if_neg hend, if_pos rfl]
      exact ⟨[], fun _ hc => absurd hc List.not_mem_nil, rfl⟩

theorem skipLine_line (hline : ∀ c ∈ line, isEnd c = false) (last : u8) :
    skipLine false last (line ++ tail) = skipLine false last tail := by
  induction line with
  | nil => rfl
  | cons c line ih =>
    have hend : ¬(c = CR ∨ c = LF) := fun he => by
      have := hline c List.mem_cons_self
      rw [isEnd_iff.mpr he] at this
      cases this
    rw [List.cons_append, skipLine, if_neg hend, if_neg Bool.false_ne_true]
    exact ih fun c hc => hline c (List.mem_cons_of_mem _ hc)

/-- `operator[]` goes behind the line end, and nowhere else. -/
theorem InLine.index (h : InLine t line tail) (ch : u8) :
    ∃ ends, tail = ends ++ (t.index ch).buffer ∧ (∀ c ∈ ends, isEnd c = true) ∧
      (ends = [] → (t.index ch).buffer = []) := by
  cases h with
  | ended ends hnewline hends hne =>
    have hkeep : (t.index ch).buffer = t.buffer := by
      unfold BufferTok.index
      rw [hnewline]
      rfl
    rw [hkeep]
    exact ⟨ends, rfl, hends, fun hnil => absurd hnil hne⟩
  | progress _ _ hnewline hbuffer hline htail =>
    have hskip : (t.index ch).buffer = skipLine false 0 tail := by
      unfold BufferTok.index
      rw [hnewline, hbuffer]
      exact skipLine_line hline 0
    rw [hskip]
    cases tail with
    | nil => exact ⟨[], rfl, fun _ hc => absurd hc List.not_mem_nil, fun _ => rfl⟩
    | cons c tail =>
      have hend := htail c rfl
      obtain ⟨ends, hends, hsplit⟩ := skipLine_ends tail c
      have hstart : skipLine false 0 (c :: tail) = skipLine true c tail := by
        rw [skipLine, if_pos (isEnd_iff.mp hend)]
        exact if_neg fun hd => Bool.false_ne_true hd.1
      rw [hstart]
      refine ⟨c :: ends, ?_, fun d hd => ?_, fun hnil => absurd hnil (List.cons_ne_nil _ _)⟩
      · rw [List.cons_append, ← hsplit]
      · rcases List.mem_cons.mp hd with rfl | hd
        · exact hend
        · exact hends d hd

theorem InLine.at_end (h : InLine t line tail) (hempty : line.length + tail.length = 0) : t.buffer = [] := by
  cases h with
  | ended ends _ _ hne =>
    rw [List.length_append] at hempty
    exact absurd (List.length_eq_zero_iff.mp (by omega)) hne
  | progress _ _ _ hbuffer _ _ =>
    rw [hbuffer, ← List.length_eq_zero_iff, List.length_append]
    exact hempty

/-- The `operator>>` of a round. -/
theorem InLine.extracts (token : Nat → u8) (n : Nat) : ∀ {t : BufferTok} {line : List u8},
    InLine t line tail → isEnd t.delimiter = false →
      (∃ line', line'.length ≤ line.length ∧ InLine (t.extracts token n).1 line' tail) ∧
        (ExtractsFit token n t → Yields t.delimiter n line (t.extracts token n).2) := by
  induction n with
  | zero =>
    intro t line h _
    exact ⟨⟨line, le_refl _, h⟩, fun _ => ⟨rfl, fun k hk => absurd hk (Nat.not_lt_zero k)⟩⟩
  | succ n ih =>
    intro t line h hdelimiter
    obtain ⟨hnext, hsame, hholds⟩ := h.extract hdelimiter token
    obtain ⟨⟨line', hle, hin⟩, hyields⟩ := ih hnext (by rw [hsame]; exact hdelimiter)
    rw [List.length_drop] at hle
    refine ⟨⟨line', hle.trans (Nat.sub_le _ _), hin⟩, fun hfits => ?_⟩
    obtain ⟨hlength, hrest⟩ := hyields hfits.2
    rw [hsame] at hrest
    refine ⟨congrArg Nat.succ hlength, fun k hk => ?_⟩
    cases k with
    | zero => exact hholds hfits.1
    | succ k => exact hrest k (Nat.lt_of_succ_lt_succ hk)

/-- The start of a line. -/
theorem inLine_start {buffer : List u8} : InLine ⟨buffer, delimiter, false⟩
    (buffer.takeWhile fun c => !isEnd c) (buffer.dropWhile fun c => !isEnd c) := by
  refine .progress _ _ rfl List.takeWhile_append_dropWhile.symm (fun c hc => ?_) fun c hc => ?_
  · simpa using List.mem_takeWhile_imp hc
  · have hhead := List.head?_dropWhile_not (fun c => !isEnd c) buffer
    rw [hc] at hhead
    simpa using hhead

/-- A loop ends, and each round has the fields of its line. -/
theorem loop_spec (token : Nat → u8) {program : Nat → u8 × Nat}
    (hprogram : ∀ k, isEnd (program k).1 = false) : ∀ (fuel k : Nat) (t : BufferTok) (line tail : List u8),
    InLine t line tail → (t.buffer = [] ∨ (t.index (program k).1).buffer.length < fuel) →
      ∃ rounds, loop token program fuel k t = some rounds ∧
        (LoopFits token program fuel k t → Lines program k (t.index (program k).1).buffer rounds) := by
  have hdone : ∀ (k : Nat) {t : BufferTok} {line tail : List u8}, InLine t line tail → t.buffer = [] →
      Lines program k (t.index (program k).1).buffer [] := by
    intro k t line tail h hempty
    show (if !t.newline then skipLine false 0 t.buffer else t.buffer) = []
    rw [hempty]
    split <;> rfl
  intro fuel
  induction fuel with
  | zero =>
    intro k t line tail h hfuel
    have hempty := hfuel.resolve_right (Nat.not_lt_zero _)
    exact ⟨[], if_pos hempty, fun _ => hdone k h hempty⟩
  | succ fuel ih =>
    intro k t line tail h hfuel
    by_cases hempty : t.buffer = []
    · exact ⟨[], if_pos hempty, fun _ => hdone k h hempty⟩
    · set start := t.index (program k).1 with hstart
      set line' := start.buffer.takeWhile fun c => !isEnd c with hline'
      set tail' := start.buffer.dropWhile fun c => !isEnd c with htail'
      have hin : InLine start line' tail' := inLine_start
      have hsplit : line' ++ tail' = start.buffer := List.takeWhile_append_dropWhile
      obtain ⟨⟨left, hshort, hleft⟩, hyields⟩ := hin.extracts token (program k).2 (hprogram k)
      set after := (start.extracts token (program k).2).1 with hafter
      obtain ⟨ends, htail, hends, hlast⟩ := hleft.index (program (k + 1)).1
      have hlength := congrArg List.length hsplit
      rw [htail, List.length_append, List.length_append] at hlength
      have hsmaller : after.buffer = [] ∨ (after.index (program (k + 1)).1).buffer.length < fuel := by
        have hlt := hfuel.resolve_left hempty
        by_cases hnil : start.buffer = []
        · rw [hnil, List.length_nil] at hlength
          refine .inl (hleft.at_end ?_)
          rw [htail, List.length_append]
          omega
        · right
          have hpos := List.length_pos_of_ne_nil hnil
          have hnext : ends.length = 0 → (after.index (program (k + 1)).1).buffer.length = 0 := fun h0 => by
            rw [hlast (List.length_eq_zero_iff.mp h0)]
            rfl
          omega
      obtain ⟨rounds, hrun, hlines⟩ := ih (k + 1) after left tail' hleft hsmaller
      refine ⟨(start.extracts token (program k).2).2 :: rounds, ?_, fun hfits => ?_⟩
      · rw [loop, if_neg hempty]
        dsimp only
        rw [hrun]
        rfl
      · obtain ⟨hround, hmore⟩ := hfits hempty
        refine ⟨line', ends, _, ?_, ?_, hends, hlast, hyields hround, hlines hmore⟩
        · rw [List.append_assoc, ← htail, hsplit]
        · intro c hc
          simpa using List.mem_takeWhile_imp hc

end Loops

/-- **Calls and loops**: a call on a line in progress consumes the characters up to the next delimiter or
line end and returns them as a token, exactly if there is no space to be taken back that was not copied,
or that is in front of a line end and was. A loop with delimiters that are not line ends comes to an end,
and if its tokens fit, each of its rounds has the tokens of its line. -/
theorem tokenizer (t : BufferTok) (token : Nat → u8) (tokenBufferSize : Nat) (hnewline : t.newline = false)
    (hpos : 1 ≤ tokenBufferSize) (hlt : tokenBufferSize < 2 ^ 32) (buffer : List u8)
    (program : Nat → u8 × Nat) (hprogram : ∀ k, isEnd (program k).1 = false) (fuel : Nat)
    (hfuel : buffer.length < fuel) :
    (CallRight t token tokenBufferSize ↔ Fits t tokenBufferSize) ∧
      ∃ rounds, loop token program fuel 0 (.new buffer) = some rounds ∧
        (LoopFits token program fuel 0 (.new buffer) → Lines program 0 buffer rounds) := by
  refine ⟨callRight_iff hpos hlt hnewline token, ?_⟩
  have hin : InLine (.new buffer) [] ([CR] ++ buffer) :=
    .ended [CR] rfl (fun c hc => List.mem_singleton.mp hc ▸ rfl) (List.cons_ne_nil _ _)
  exact loop_spec token hprogram fuel 0 (.new buffer) _ _ hin (.inr hfuel)

end Spec

section Example

/-- The characters of a text. -/
def chars (text : String) : List u8 := text.toList.map fun c => BitVec.ofNat 8 c.toNat

/-- A call that cuts a token, and a loop over two lines. -/
theorem tokenizer_two_lines :
    let t : BufferTok := ⟨chars " ab  cd:ef", 58, false⟩
    (CallRight t (fun _ => 0) 5 ↔ Fits t 5) ∧
      ∃ rounds, loop (fun _ => 0) (fun _ => (58, 2)) 20 0 (.new (chars "a:b c\r\nd:e")) = some rounds ∧
        (LoopFits (fun _ => 0) (fun _ => (58, 2)) 20 0 (.new (chars "a:b c\r\nd:e")) →
          Lines (fun _ => (58, 2)) 0 (chars "a:b c\r\nd:e") rounds) :=
  tokenizer ⟨chars " ab  cd:ef", 58, false⟩ (fun _ => 0) 5 rfl (by decide) (by decide) _ (fun _ => (58, 2))
    (fun _ => rfl) 20 (by decide)

/-- A space in front of a line end stays; where there is no room for the space, the character before is
taken away; and where there is no room at all, the length wraps. -/
theorem not_tokenizer :
    (¬CallRight ⟨chars "a \n", 58, false⟩ (fun _ => 0) 256 ∧
      (BufferTok.readNext ⟨chars "a \n", 58, false⟩ (fun _ => 0) 256).2.2 = 2) ∧
    (¬CallRight ⟨chars "a :", 58, false⟩ (fun _ => 0) 2 ∧
      (BufferTok.readNext ⟨chars "a :", 58, false⟩ (fun _ => 0) 2).2.2 = 0) ∧
    ¬CallRight ⟨chars "a :", 58, false⟩ (fun _ => 0) 1 ∧
      (BufferTok.readNext ⟨chars "a :", 58, false⟩ (fun _ => 0) 1).2.2 = 2 ^ 32 - 1 := by
  have hwrong : ∀ {t : BufferTok} {size n : Nat}, (t.readNext (fun _ => 0) size).2.2 = n →
      ((tidy (segment t.delimiter t.buffer)).take (size - 1)).length ≠ n →
      ¬CallRight t (fun _ => 0) size := by
    intro t size n hrun hne hright
    exact hne (hright.returns.copied.symm.trans hrun)
  refine ⟨⟨hwrong (n := 2) ?_ ?_, ?_⟩, ⟨hwrong (n := 0) ?_ ?_, ?_⟩, hwrong (n := 2 ^ 32 - 1) ?_ ?_, ?_⟩
  all_goals decide +kernel

end Example

end Libcat.Parse.Tokenizer
