import Libcat.Net.DNSClient

/-!
# The question of a DNS request

`PostDNSPacket` writes the hostname into a packet from its last character to the first one and puts the
length of a label in the place of the dot before it. `IsValidHostname` reads the hostname forwards.

- `isValidHostname_iff`: the names that are accepted, label by label.
- `readLabels_packet`: what is read from the packet is the labels.
-/

namespace Libcat.Net.DNSClient

section Model

def dnsHdrlen : Nat := 12
def dnsQuestionFooter : Nat := 4
def qtypeAddrIpv4 : u16 := 1
def qclassInternet : u16 := 1
def dnshdrRd : Nat := 8

/-- A write of `getBE16(word)`. -/
def putBE16 (pkt : Nat → u8) (offset : Nat) (word : u16) : Nat → u8 :=
  Function.update (Function.update pkt offset ((word >>> 8).setWidth 8)) (offset + 1) (word.setWidth 8)

/-- The loop of `PostDNSPacket` over the first `ii` characters, from the last one: `last_dot` and the
packet. -/
def labelLoop (hostname : List u8) : Nat → Int → (Nat → u8) → Int × (Nat → u8)
  | 0, lastDot, pkt => (lastDot, pkt)
  | ii + 1, lastDot, pkt =>
    let byte := hostname.getD ii 0
    -- Replace dots with label lengths
    if byte = 46 then
      labelLoop hostname ii (ii - 1)
        (Function.update pkt (dnsHdrlen + ii + 1) (BitVec.ofInt 8 (lastDot - ii)))
    else labelLoop hostname ii lastDot (Function.update pkt (dnsHdrlen + ii + 1) byte)

/-- The header of a request in a buffer that holds anything. `id` is the identifier as it is in memory. -/
def dnsHeader (buffer : Nat → u8) (id : u8 × u8) : Nat → u8 :=
  let pkt := Function.update (Function.update buffer 0 id.1) 1 id.2
  let pkt := putBE16 pkt 2 (1 <<< dnshdrRd)
  let pkt := putBE16 pkt 4 1
  let pkt := putBE16 pkt 6 0
  let pkt := putBE16 pkt 8 0
  putBE16 pkt 10 0

/-- `PostDNSPacket` up to the write. -/
def postDNSPacket (buffer : Nat → u8) (id : u8 × u8) (hostname : List u8) : List u8 :=
  let strLen := hostname.length
  let bytes := dnsHdrlen + 1 + strLen + 1 + dnsQuestionFooter
  let pkt := Function.update (dnsHeader buffer id) (dnsHdrlen + 1 + strLen) 0
  let r := labelLoop hostname strLen (strLen - 1) pkt
  let pkt := Function.update r.2 dnsHdrlen (BitVec.ofInt 8 (r.1 + 1))
  let foot := dnsHdrlen + 1 + strLen + 1
  let pkt := putBE16 pkt foot qtypeAddrIpv4
  let pkt := putBE16 pkt (foot + 2) qclassInternet
  (List.range bytes).map pkt

/-! ### The format -/

/-- Labels with their lengths before them, up to a length of zero: the labels and what comes after. -/
def readLabels : Nat → List u8 → Option (List (List u8) × List u8)
  | 0, _ | _, [] => none
  | fuel + 1, n :: bytes =>
    if n = 0 then some ([], bytes)
    else if 63 < n.toNat ∨ bytes.length < n.toNat then none
    else (readLabels fuel (bytes.drop n.toNat)).map fun r => (bytes.take n.toNat :: r.1, r.2)

/-- A label of letters, digits and single inner dashes, with a letter. -/
structure GoodLabel (label : List u8) : Prop where
  chars : ∀ c ∈ label, isAlphabetic c = true ∨ isNumeric c = true ∨ c = 45
  letter : ∃ c ∈ label, isAlphabetic c = true
  head : label.head? ≠ some 45
  last : label.getLast? ≠ some 45
  single : label.IsChain fun a b => ¬ (a = 45 ∧ b = 45)

end Model

/-! ## The validator -/

section Validator

/-- A label as far as it is read. -/
structure GoodPrefix (label : List u8) : Prop where
  chars : ∀ c ∈ label, isAlphabetic c = true ∨ isNumeric c = true ∨ c = 45
  head : label.head? ≠ some 45
  single : label.IsChain fun a b => ¬ (a = 45 ∧ b = 45)

variable {label : List u8} {c : u8}

/-- `last_char` -/
def lastChar (label : List u8) : u8 := label.getLast?.getD 0

theorem isAlphabetic_ne (h : isAlphabetic c = true) : c ≠ 0 ∧ c ≠ 45 ∧ c ≠ 46 := by
  refine ⟨?_, ?_, ?_⟩ <;> rintro rfl <;> revert h <;> decide

theorem isNumeric_ne (h : isNumeric c = true) : c ≠ 0 ∧ c ≠ 45 ∧ c ≠ 46 := by
  refine ⟨?_, ?_, ?_⟩ <;> rintro rfl <;> revert h <;> decide

theorem GoodPrefix.nil : GoodPrefix [] := ⟨by simp, by simp, List.isChain_nil⟩

theorem GoodLabel.goodPrefix {rest : List u8} (h : GoodLabel (label ++ rest)) : GoodPrefix label where
  chars a ha := h.chars a (List.mem_append_left _ ha)
  head hd := h.head (by rw [List.head?_append, hd]; rfl)
  single := h.single.left_of_append

/-- The prefix is a label if it has a letter and its last character is no dash. -/
theorem GoodPrefix.goodLabel_iff (h : GoodPrefix label) :
    GoodLabel label ↔ (label.any isAlphabetic &&
      (isAlphabetic (lastChar label) || isNumeric (lastChar label))) = true := by
  rw [Bool.and_eq_true, List.any_eq_true, Bool.or_eq_true]
  constructor
  · intro hl
    refine ⟨hl.letter, ?_⟩
    obtain ⟨c, hc, -⟩ := hl.letter
    obtain ⟨pre, x, rfl⟩ := List.eq_nil_or_concat label |>.resolve_left (List.ne_nil_of_mem hc)
    have hx := h.chars x (by simp)
    have hlast := hl.last
    simp only [lastChar, List.concat_eq_append, List.getLast?_concat, Option.getD_some] at hlast ⊢
    rcases hx with hx | hx | rfl
    · exact .inl hx
    · exact .inr hx
    · exact absurd rfl hlast
  · rintro ⟨hletter, hlast⟩
    refine ⟨h.chars, hletter, h.head, fun hd => ?_, h.single⟩
    rw [lastChar, hd] at hlast
    revert hlast
    decide

theorem GoodPrefix.concat (h : GoodPrefix label) (hc : isAlphabetic c = true ∨ isNumeric c = true ∨ c = 45)
    (hdash : c = 45 → lastChar label ≠ 45 ∧ lastChar label ≠ 0) : GoodPrefix (label ++ [c]) where
  chars a ha := by
    rcases List.mem_append.mp ha with ha | ha
    · exact h.chars a ha
    · rw [List.mem_singleton.mp ha]
      exact hc
  head := by
    cases label with
    | cons a l => simpa using h.head
    | nil =>
      intro hd
      obtain rfl : c = 45 := by simpa using hd
      exact (hdash rfl).2 rfl
  single := by
    refine List.isChain_append.mpr ⟨h.single, List.isChain_singleton c, ?_⟩
    rintro a ha b hb ⟨rfl, rfl⟩
    obtain rfl : c = 45 := by simpa using hb
    apply (hdash rfl).1
    rw [lastChar, Option.mem_def.mp ha]
    rfl

theorem lastChar_concat : lastChar (label ++ [c]) = c := by
  rw [lastChar, List.getLast?_concat]
  rfl

/-- The label goes on to the next dot. -/
theorem modifyHead_cons (cs : List u8) (hc : c ≠ 46) :
    ((c :: cs).splitOn 46).modifyHead (label ++ ·) = (cs.splitOn 46).modifyHead (label ++ [c] ++ ·) := by
  rw [List.splitOn_cons_eq_if_modifyHead, if_neg (by simpa using hc), List.modifyHead_modifyHead]
  congr 1
  funext l
  simp

theorem modifyHead_nil (parts : List (List u8)) : parts.modifyHead (([] : List u8) ++ ·) = parts := by
  cases parts <;> rfl

/-- A character that no label goes on with. -/
theorem not_goodLabels {cs : List u8} (hc : c ≠ 46) (hbad : ¬ GoodPrefix (label ++ [c])) :
    ¬ ∀ part ∈ ((c :: cs).splitOn 46).modifyHead (label ++ ·), GoodLabel part := by
  intro hall
  rw [modifyHead_cons cs hc] at hall
  obtain ⟨part, parts, hparts⟩ := List.exists_cons_of_ne_nil (List.splitOn_ne_nil 46 cs)
  rw [hparts, List.modifyHead_cons] at hall
  exact hbad (hall _ List.mem_cons_self).goodPrefix

theorem validLabels_iff (cs : List u8) : ∀ {label : List u8}, GoodPrefix label →
    (validLabels (lastChar label) (label.any isAlphabetic) cs = true ↔
      ∀ part ∈ (cs.splitOn 46).modifyHead (label ++ ·), GoodLabel part) := by
  induction cs with
  | nil =>
    intro label h
    rw [validLabels, List.splitOn_nil, List.modifyHead_cons, List.append_nil, List.forall_mem_singleton]
    exact h.goodLabel_iff.symm
  | cons c cs ih =>
    intro label h
    have hany : ∀ b, isAlphabetic c = b → (label ++ [c]).any isAlphabetic = (label.any isAlphabetic || b) := by
      intro b hb
      simp [hb]
    rw [validLabels]
    by_cases halpha : isAlphabetic c = true
    · rw [if_pos halpha, modifyHead_cons cs (isAlphabetic_ne halpha).2.2]
      have hnext := ih (h.concat (.inl halpha) fun hd => absurd hd (isAlphabetic_ne halpha).2.1)
      rwa [lastChar_concat, hany _ halpha, Bool.or_true] at hnext
    · rw [if_neg halpha]
      have hany' := hany _ (by simpa using halpha)
      by_cases hnum : isNumeric c = true
      · rw [if_pos hnum, modifyHead_cons cs (isNumeric_ne hnum).2.2]
        have hnext := ih (h.concat (.inr (.inl hnum)) fun hd => absurd hd (isNumeric_ne hnum).2.1)
        rwa [lastChar_concat, hany', Bool.or_false] at hnext
      · rw [if_neg hnum]
        by_cases hdash : c = 45
        · subst hdash
          rw [if_pos rfl]
          by_cases hlast : lastChar label = 45 ∨ lastChar label = 0
          · rw [if_pos (by simpa using hlast)]
            refine iff_of_false (by simp) (not_goodLabels (by decide) fun hbad => ?_)
            rcases hlast with hlast | hlast
            · -- two dashes
              rcases List.eq_nil_or_concat label with rfl | ⟨pre, x, rfl⟩
              · exact absurd hlast (by decide)
              · rw [List.concat_eq_append, lastChar_concat] at hlast
                rw [List.concat_eq_append, hlast, List.append_assoc] at hbad
                have := hbad.single.right_of_append
                simp at this
            · -- a dash in front
              rcases List.eq_nil_or_concat label with rfl | ⟨pre, x, rfl⟩
              · exact hbad.head rfl
              · rw [List.concat_eq_append, lastChar_concat] at hlast
                have hx := h.chars x (by simp)
                rw [hlast] at hx
                revert hx
                decide
          · rw [if_neg (by simpa using hlast), modifyHead_cons cs (by decide)]
            have hnext := ih (h.concat (.inr (.inr rfl)) fun _ =>
              ⟨fun he => hlast (.inl he), fun he => hlast (.inr he)⟩)
            rwa [lastChar_concat, hany', Bool.or_false] at hnext
        · rw [if_neg hdash]
          by_cases hdot : c = 46
          · subst hdot
            have hsplit : ((46 :: cs).splitOn 46).modifyHead (label ++ ·) = label :: cs.splitOn 46 := by
              rw [List.splitOn_cons_eq_if_modifyHead, if_pos (by simp), List.modifyHead_cons, List.append_nil]
            have hrest := ih GoodPrefix.nil
            rw [modifyHead_nil] at hrest
            rw [if_pos rfl, hsplit, List.forall_mem_cons, h.goodLabel_iff, ← hrest]
            split
            · rename_i hgood
              exact ⟨fun hv => ⟨hgood, hv⟩, fun hv => hv.2⟩
            · rename_i hbad
              exact iff_of_false (by simp) fun hv => hbad hv.1
          · rw [if_neg hdot]
            refine iff_of_false (by simp) (not_goodLabels hdot fun hbad => ?_)
            rcases hbad.chars c (by simp) with hc | hc | hc
            · exact halpha hc
            · exact hnum hc
            · exact hdash hc

/-- **The names that are accepted.** -/
theorem isValidHostname_iff (hostname : List u8) :
    isValidHostname hostname = true ↔
      hostname.length ≤ hostnameMaxlen ∧ ∀ label ∈ hostname.splitOn 46, GoodLabel label := by
  have hlabels := validLabels_iff hostname GoodPrefix.nil
  rw [modifyHead_nil] at hlabels
  rw [isValidHostname, Bool.and_eq_true, decide_eq_true_eq, ← hlabels]
  rfl

end Validator

/-! ## The packet -/

section Packet

/-- The length of the first label. -/
def firstLen (name : List u8) : Nat := (name.takeWhile (· ≠ 46)).length

/-- The characters, with label lengths in place of the dots. -/
def marks : List u8 → List u8
  | [] => []
  | c :: cs => (if c = 46 then BitVec.ofNat 8 (firstLen cs) else c) :: marks cs

theorem firstLen_cons (c : u8) (cs : List u8) :
    firstLen (c :: cs) = if c = 46 then 0 else firstLen cs + 1 := by
  unfold firstLen
  rw [List.takeWhile_cons]
  by_cases hc : c = 46
  · rw [if_pos hc, if_neg (by simpa using hc)]
    rfl
  · rw [if_neg hc, if_pos (by simpa using hc)]
    rfl

theorem length_marks (name : List u8) : (marks name).length = name.length := by
  induction name with
  | nil => rfl
  | cons c cs ih => rw [marks, List.length_cons, List.length_cons, ih]

theorem drop_marks (pre suf : List u8) : (marks (pre ++ suf)).drop pre.length = marks suf := by
  induction pre with
  | nil => rfl
  | cons c pre ih => exact ih

/-- A label without dots stays as it is. -/
theorem marks_append {label : List u8} (h : (46 : u8) ∉ label) (rest : List u8) :
    marks (label ++ rest) = label ++ marks rest := by
  induction label with
  | nil => rfl
  | cons c label ih =>
    rw [List.mem_cons, not_or] at h
    rw [List.cons_append, marks, if_neg (Ne.symm h.1), ih h.2, List.cons_append]

theorem firstLen_append {label rest : List u8} (h : (46 : u8) ∉ label) :
    firstLen (label ++ rest) = label.length + firstLen rest := by
  induction label with
  | nil => simp
  | cons c label ih =>
    rw [List.mem_cons, not_or] at h
    rw [List.cons_append, firstLen_cons, if_neg (Ne.symm h.1), ih h.2, List.length_cons]
    omega

/-- From `last_dot` at the end of the first label of the rest, the loop puts the lengths of the labels
in place of the dots. -/
theorem labelLoop_spec (pre : List u8) : ∀ (suf : List u8) (lastDot : Int) (pkt : Nat → u8),
    lastDot + 1 = pre.length + firstLen suf →
    let r := labelLoop (pre ++ suf) pre.length lastDot pkt
    r.1 + 1 = firstLen (pre ++ suf) ∧
      (∀ j < pre.length, r.2 (dnsHdrlen + j + 1) = (marks (pre ++ suf)).getD j 0) ∧
      ∀ k, k ≤ dnsHdrlen ∨ dnsHdrlen + pre.length + 1 ≤ k → r.2 k = pkt k := by
  induction pre using List.reverseRecOn with
  | nil =>
    intro suf lastDot pkt hlast
    refine ⟨by simpa [labelLoop] using hlast, by simp, fun _ _ => rfl⟩
  | append_singleton pre c ih =>
    intro suf lastDot pkt hlast
    have hbyte : (pre ++ [c] ++ suf).getD pre.length 0 = c := by simp
    have hmark : (marks (pre ++ [c] ++ suf)).getD pre.length 0 = (marks (c :: suf)).getD 0 0 := by
      have hdrop := drop_marks pre (c :: suf)
      rw [← hdrop, List.append_assoc, List.singleton_append]
      simp
    rw [List.length_append, List.length_singleton] at hlast
    intro r
    -- the byte of this step, and `last_dot` after it
    obtain ⟨lastDot', byte, hr, hlast', hmark'⟩ : ∃ lastDot' byte,
        r = labelLoop (pre ++ c :: suf) pre.length lastDot'
          (Function.update pkt (dnsHdrlen + pre.length + 1) byte) ∧
        lastDot' + 1 = pre.length + firstLen (c :: suf) ∧ byte = (marks (c :: suf)).getD 0 0 := by
      simp only [r]
      rw [List.length_append, List.length_singleton, labelLoop]
      simp only [hbyte]
      rw [List.append_assoc, List.singleton_append, firstLen_cons]
      by_cases hc : c = 46
      · rw [if_pos hc, if_pos hc]
        refine ⟨_, _, rfl, by push_cast; omega, ?_⟩
        rw [marks, if_pos hc, List.getD_cons_zero, ← BitVec.ofInt_natCast]
        congr 1
        push_cast at hlast
        omega
      · rw [if_neg hc, if_neg hc]
        refine ⟨_, _, rfl, by push_cast at hlast ⊢; omega, ?_⟩
        rw [marks, if_neg hc, List.getD_cons_zero]
    obtain ⟨h1, h2, h3⟩ := ih (c :: suf) lastDot' _ hlast'
    rw [← hr] at h1 h2 h3
    rw [List.append_assoc, List.singleton_append, List.length_append, List.length_singleton] at *
    refine ⟨h1, fun j hj => ?_, fun k hk => ?_⟩
    · by_cases hjp : j < pre.length
      · exact h2 j hjp
      · obtain rfl : j = pre.length := by omega
        rw [h3 _ (.inr (by omega)), Function.update_self, hmark, hmark']
    · rw [h3 k (by omega), Function.update_of_ne (by omega)]

theorem putBE16_self (pkt : Nat → u8) (offset : Nat) (word : u16) :
    putBE16 pkt offset word offset = (word >>> 8).setWidth 8 ∧
      putBE16 pkt offset word (offset + 1) = word.setWidth 8 := by
  constructor
  · rw [putBE16, Function.update_of_ne (by omega), Function.update_self]
  · rw [putBE16, Function.update_self]

theorem putBE16_of_ne (pkt : Nat → u8) {offset k : Nat} (word : u16) (h : k < offset ∨ offset + 2 ≤ k) :
    putBE16 pkt offset word k = pkt k := by
  rw [putBE16, Function.update_of_ne (by omega), Function.update_of_ne (by omega)]

/-- The footer of a question for addresses. -/
def footer : List u8 := [0, 1, 0, 1]

/-- The packet after its header. -/
theorem postDNSPacket_eq (buffer : Nat → u8) (id : u8 × u8) (hostname : List u8) :
    (postDNSPacket buffer id hostname).length =
        dnsHdrlen + 1 + hostname.length + 1 + dnsQuestionFooter ∧
      (postDNSPacket buffer id hostname).drop dnsHdrlen =
        BitVec.ofNat 8 (firstLen hostname) :: (marks hostname ++ 0 :: footer) := by
  unfold postDNSPacket
  dsimp only
  have hzero : Function.update (dnsHeader buffer id) (dnsHdrlen + 1 + hostname.length) 0
      (dnsHdrlen + 1 + hostname.length) = 0 := Function.update_self _ _ _
  generalize Function.update (dnsHeader buffer id) (dnsHdrlen + 1 + hostname.length) 0 = pkt at hzero ⊢
  have hloop := labelLoop_spec hostname [] (hostname.length - 1) pkt (by simp [firstLen])
  simp only [List.append_nil] at hloop
  generalize labelLoop hostname hostname.length (hostname.length - 1) pkt = r at hloop ⊢
  obtain ⟨hfirst, hmarks, hrest⟩ := hloop
  generalize hfinal : putBE16 (putBE16 _ _ qtypeAddrIpv4) _ qclassInternet = final
  refine ⟨by rw [List.length_map, List.length_range], ?_⟩
  have hbefore : ∀ k, k < dnsHdrlen + 1 + hostname.length + 1 →
      final k = Function.update r.2 dnsHdrlen (BitVec.ofInt 8 (r.1 + 1)) k := by
    intro k hk
    rw [← hfinal, putBE16_of_ne _ _ (.inl (by omega)), putBE16_of_ne _ _ (.inl hk)]
  have hfoot : ((List.range' (dnsHdrlen + 1 + hostname.length + 1) 4).map final) = footer := by
    have h1 := putBE16_self (putBE16 (Function.update r.2 dnsHdrlen (BitVec.ofInt 8 (r.1 + 1)))
      (dnsHdrlen + 1 + hostname.length + 1) qtypeAddrIpv4)
      (dnsHdrlen + 1 + hostname.length + 1 + 2) qclassInternet
    have h2 := putBE16_self (Function.update r.2 dnsHdrlen (BitVec.ofInt 8 (r.1 + 1)))
      (dnsHdrlen + 1 + hostname.length + 1) qtypeAddrIpv4
    have h3 : ∀ k, k < dnsHdrlen + 1 + hostname.length + 1 + 2 →
        final k = putBE16 (Function.update r.2 dnsHdrlen (BitVec.ofInt 8 (r.1 + 1)))
          (dnsHdrlen + 1 + hostname.length + 1) qtypeAddrIpv4 k := fun k hk => by
      rw [← hfinal, putBE16_of_ne _ _ (.inl hk)]
    rw [hfinal] at h1
    simp only [List.range', List.map_cons, List.map_nil]
    rw [h3 _ (by omega), h3 _ (by omega), h2.1, h2.2, h1.1, h1.2]
    decide
  have hlist : List.range (dnsHdrlen + 1 + hostname.length + 1 + dnsQuestionFooter) =
      List.range dnsHdrlen ++ ([dnsHdrlen] ++ (List.range' (dnsHdrlen + 1) hostname.length ++
        ([dnsHdrlen + 1 + hostname.length] ++ List.range' (dnsHdrlen + 1 + hostname.length + 1) 4))) := by
    simp only [List.range_eq_range', dnsHdrlen, dnsQuestionFooter]
    rw [show 12 + 1 + hostname.length + 1 + 4 = 12 + (1 + (hostname.length + (1 + 4))) by omega,
      ← List.range'_append_1, ← List.range'_append_1, ← List.range'_append_1, ← List.range'_append_1]
    simp only [Nat.zero_add, List.range'_one]
  rw [hlist, List.map_append, List.drop_left' (by simp)]
  simp only [List.map_append, List.map_cons, List.singleton_append, hfoot]
  rw [hbefore _ (by omega), Function.update_self, hbefore _ (by omega), Function.update_of_ne (by omega),
    hrest _ (.inr (by omega)), hzero, hfirst, BitVec.ofInt_natCast]
  congr 2
  refine List.ext_getElem (by simp [length_marks]) fun j hj hj' => ?_
  have hjl : j < hostname.length := by simpa using hj
  rw [List.getElem_map, List.getElem_range'_1, hbefore _ (by omega), Function.update_of_ne (by omega),
    show dnsHdrlen + 1 + j = dnsHdrlen + j + 1 by omega, hmarks j hjl]
  exact (List.getElem_eq_getD 0).symm

/-- A name without empty labels is read back label by label. -/
theorem readLabels_marks (fuel : Nat) : ∀ (name foot : List u8), name.length ≤ 63 →
    (∀ label ∈ name.splitOn 46, label ≠ []) → name.length + 2 ≤ fuel →
    readLabels fuel (BitVec.ofNat 8 (firstLen name) :: (marks name ++ 0 :: foot)) =
      some (name.splitOn 46, foot) := by
  induction fuel with
  | zero => intro name foot _ _ hfuel; omega
  | succ fuel ih =>
    intro name foot hlen hne hfuel
    have hsplit := List.takeWhile_append_dropWhile (p := fun c : u8 => c ≠ 46) (l := name)
    have hdot : (46 : u8) ∉ name.takeWhile (· ≠ 46) := fun hm => by
      simpa using List.all_eq_true.mp List.all_takeWhile _ hm
    generalize name.takeWhile (· ≠ 46) = label at hsplit hdot
    have hread : ∀ rest, firstLen rest = 0 → name = label ++ rest → label ≠ [] →
        readLabels (fuel + 1) (BitVec.ofNat 8 (firstLen name) :: (marks name ++ 0 :: foot)) =
          (readLabels fuel (marks rest ++ 0 :: foot)).map fun r => (label :: r.1, r.2) := by
      intro rest hrest hname hlabel
      have hpos := List.length_pos_iff.mpr hlabel
      have hle : label.length ≤ 63 := by
        rw [hname, List.length_append] at hlen
        omega
      have hn : (BitVec.ofNat 8 label.length).toNat = label.length := by
        rw [BitVec.toNat_ofNat]
        omega
      have hfirst : firstLen name = label.length := by rw [hname, firstLen_append hdot, hrest, Nat.add_zero]
      rw [hfirst, hname, marks_append hdot, List.append_assoc, readLabels, if_neg, if_neg, hn,
        List.drop_left, List.take_left]
      · rw [hn, List.length_append]
        omega
      · intro h0
        have := congrArg BitVec.toNat h0
        rw [hn] at this
        exact absurd this (by simp; omega)
    cases hrest : name.dropWhile (· ≠ 46) with
    | nil =>
      rw [hrest, List.append_nil] at hsplit
      have hone : name.splitOn 46 = [name] := List.splitOn_eq_singleton (hsplit ▸ hdot)
      have hlabel : label ≠ [] := by
        rw [hsplit]
        exact hne name (by rw [hone]; exact List.mem_singleton_self name)
      rw [hread [] rfl (by simpa using hsplit.symm) hlabel, hone, hsplit]
      have hf : ∃ f, fuel = f + 1 := ⟨fuel - 1, by
        have := List.length_pos_iff.mpr hlabel
        omega⟩
      obtain ⟨f, rfl⟩ := hf
      rfl
    | cons c cs =>
      have hc : c = 46 := by
        have := List.head?_dropWhile_not (fun c : u8 => decide (c ≠ 46)) name
        rw [hrest] at this
        simpa using this
      subst hc
      rw [hrest] at hsplit
      have hparts : name.splitOn 46 = label :: cs.splitOn 46 := by
        rw [← hsplit]
        exact List.splitOn_append_cons_self_of_not_mem hdot cs
      rw [hparts] at hne ⊢
      have hlabel := hne label List.mem_cons_self
      have hlength : label.length + (cs.length + 1) = name.length := by
        rw [← hsplit, List.length_append, List.length_cons]
      rw [hread (46 :: cs) (by rw [firstLen_cons, if_pos rfl]) hsplit.symm hlabel, marks, if_pos rfl,
        List.cons_append, ih cs foot (by omega) (fun l hl => hne l (List.mem_cons_of_mem _ hl)) (by omega)]
      rfl

end Packet

theorem length_le_intercalate {label : List u8} {parts : List (List u8)} (h : label ∈ parts) :
    label.length ≤ ([46].intercalate parts).length := by
  induction parts with
  | nil => cases h
  | cons part parts ih =>
    cases parts with
    | nil =>
      rw [List.mem_singleton.mp h, List.intercalate_singleton]
    | cons part' parts =>
      rw [List.intercalate_cons_cons, List.length_append, List.length_append]
      rcases List.mem_cons.mp h with rfl | h
      · omega
      · have := ih h
        omega

/-- For a name that is accepted the question holds its labels, a zero and the footer, and the names that
are accepted are those of good labels. -/
theorem dns_query_encoding :
    (∀ (buffer : Nat → u8) (id : u8 × u8) (hostname : List u8), isValidHostname hostname = true →
      let packet := postDNSPacket buffer id hostname
      packet.length = dnsHdrlen + 1 + hostname.length + 1 + dnsQuestionFooter ∧
        readLabels packet.length (packet.drop dnsHdrlen) = some (hostname.splitOn 46, footer) ∧
        (∀ label ∈ hostname.splitOn 46, 1 ≤ label.length ∧ label.length ≤ 63) ∧
        packet.drop (dnsHdrlen + 1 + hostname.length) = 0 :: footer) ∧
    ∀ hostname, isValidHostname hostname = true ↔
      hostname.length ≤ hostnameMaxlen ∧ ∀ label ∈ hostname.splitOn 46, GoodLabel label := by
  refine ⟨fun buffer id hostname hvalid => ?_, isValidHostname_iff⟩
  obtain ⟨hlen, hgood⟩ := (isValidHostname_iff hostname).mp hvalid
  obtain ⟨hlength, hdrop⟩ := postDNSPacket_eq buffer id hostname
  have hne : ∀ label ∈ hostname.splitOn 46, label ≠ [] := by
    intro label hl
    obtain ⟨c, hc, -⟩ := (hgood label hl).letter
    exact List.ne_nil_of_mem hc
  refine ⟨hlength, ?_, fun label hl => ⟨List.length_pos_iff.mpr (hne label hl), ?_⟩, ?_⟩
  · rw [hdrop]
    apply readLabels_marks _ hostname footer hlen hne
    rw [hlength]
    omega
  · have hjoin : [46].intercalate (hostname.splitOn 46) = hostname := List.intercalate_splitOn 46
    have hle := length_le_intercalate hl
    rw [hjoin] at hle
    exact hle.trans hlen
  · rw [Nat.add_assoc, ← List.drop_drop, hdrop, Nat.add_comm 1, List.drop_succ_cons,
      List.drop_left' (length_marks hostname)]

/-- "www.a-1.net" -/
theorem dns_query_encoding_three_labels :
    let packet := postDNSPacket (fun _ => 0xff) (1, 2) [119, 119, 119, 46, 97, 45, 49, 46, 110, 101, 116]
    packet.length = 29 ∧ readLabels 29 (packet.drop 12) =
      some ([[119, 119, 119], [97, 45, 49], [110, 101, 116]], footer) := by
  obtain ⟨hlength, hread, -, -⟩ := dns_query_encoding.1 (fun _ => 0xff) (1, 2)
    [119, 119, 119, 46, 97, 45, 49, 46, 110, 101, 116] (by decide)
  rw [hlength] at hread
  exact ⟨hlength, hread.trans (by decide)⟩

end Libcat.Net.DNSClient
