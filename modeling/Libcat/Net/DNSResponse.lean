import Libcat.Net.DNSClient

/-!
# The answers of a DNS response

`ProcessDNSResponse` over a packet in memory: what is behind the packet may be read, and the reads are
counted. A packet is at most `IOTHREADS_BUFFER_READ_BYTES` long, so that an offset does not wrap.

The parser looks at the header of a record wherever one begins inside the packet. `HeadersInside` is
what the packet must satisfy for that; `process_dns_response` says that this is all there is to it.
-/

namespace Libcat.Net.DNSClient

section Model

def qtypeIpv4 : Nat := 1
def qtypeIpv6 : Nat := 28
def qclassIn : Nat := 1
def dnsHeaderBytes : Nat := 12
def dnsAnsHdrlen : Nat := 12
def ip4Bytes : Nat := 4
def ip6Bytes : Nat := 16

/-- `getBE` of the word at an offset. -/
def getBE (data : Nat → u8) (offset : Nat) : Nat := (data offset).toNat * 256 + (data (offset + 1)).toNat

/-- The responses that are stored and the offsets that are read. -/
structure Crunched where
  responses : List (List u8)
  reads : List Nat

variable (data : Nat → u8) (bytes : Nat)

/-- The inner loop over the question part: the offset after a name. -/
def skipName : Nat → Nat → Option (Nat × List Nat)
  | fuel, offset =>
    if offset < bytes then
      match fuel with
      | 0 => none
      | fuel + 1 =>
        if data offset = 0 then some (offset + 1, [offset])
        else (skipName fuel (offset + 1 + (data offset).toNat)).map fun r => (r.1, offset :: r.2)
    else some (offset, [])

/-- Get past question part. The offset is missing on overflow. -/
def skipQuestions (fuel : Nat) : Nat → Nat → Option (Option Nat × List Nat)
  | 0, offset => some (some offset, [])
  | qdcount + 1, offset =>
    match skipName data bytes fuel offset with
    | none => none
    | some (offset, reads) =>
      if bytes ≤ offset + 4 then some (none, reads)
      else (skipQuestions fuel qdcount (offset + 4)).map fun r => (r.1, reads ++ r.2)

/-- A record for an address of a type, wholly inside the packet. -/
def isAddress (type length offset : Nat) : Bool :=
  getBE data (offset + 2) = type && getBE data (offset + 4) = qclassIn &&
    getBE data (offset + 10) = length && offset + dnsAnsHdrlen + length ≤ bytes

/-- `SetFromRawIP` of the data of a record. -/
def addressData (length offset : Nat) : List u8 :=
  (List.range length).map fun i => data (offset + dnsAnsHdrlen + i)

def addressReads (length offset : Nat) : List Nat :=
  (List.range length).map fun i => offset + dnsAnsHdrlen + i

/-- One of the two branches that store an address. -/
def store (type length offset : Nat) (r : Crunched) : Crunched :=
  if isAddress data bytes type length offset then
    ⟨r.responses ++ [addressData data length offset], r.reads ++ addressReads length offset⟩
  else r

/-- The words of a record that are read: its type, its class and the length of its data. -/
def headerReads (offset : Nat) : List Nat :=
  [offset + 2, offset + 3, offset + 4, offset + 5, offset + 10, offset + 11]

/-- The inner loop over the answers. The offset is missing when the responses are full. -/
def crunchRecords : Nat → Nat → Crunched → Option (Option Nat × Crunched)
  | fuel, offset, r =>
    if offset < bytes then
      match fuel with
      | 0 => none
      | fuel + 1 =>
        let next := offset + dnsAnsHdrlen + getBE data (offset + 10)
        let r := { r with reads := r.reads ++ headerReads offset }
        -- 32-bit IPv4
        let r' := store data bytes qtypeIpv4 ip4Bytes offset r
        if r.responses.length < r'.responses.length ∧ dnscacheMaxResp ≤ r'.responses.length then
          some (none, r')
        else
          -- 128-bit IPv6
          let r'' := store data bytes qtypeIpv6 ip6Bytes offset r'
          if r'.responses.length < r''.responses.length ∧ dnscacheMaxResp ≤ r''.responses.length then
            some (none, r'')
          else crunchRecords fuel next r''
    else some (some offset, r)

/-- Crunch answers. -/
def crunchAnswers (fuel : Nat) : Nat → Nat → Crunched → Option Crunched
  | 0, _, r => some r
  | ancount + 1, offset, r =>
    match crunchRecords data bytes fuel offset r with
    | none => none
    | some (none, r) => some r
    | some (some offset, r) => if bytes ≤ offset then some r else crunchAnswers fuel ancount offset r

/-- `ProcessDNSResponse`. -/
def processDNSResponse (fuel qdcount ancount : Nat) : Option Crunched :=
  match skipQuestions data bytes fuel qdcount dnsHeaderBytes with
  | none => none
  | some (none, reads) => some ⟨[], reads⟩
  | some (some offset, reads) => crunchAnswers data bytes fuel ancount offset ⟨[], reads⟩

end Model

/-! ## Packets -/

section Packets

variable (data : Nat → u8) (bytes : Nat)

/-- Where a name ends that begins at an offset: after its zero, or outside the packet. -/
inductive NameEnd : Nat → Nat → Prop
  | outside (offset : Nat) : bytes ≤ offset → NameEnd offset offset
  | zero (offset : Nat) : offset < bytes → data offset = 0 → NameEnd offset (offset + 1)
  | label (offset stop : Nat) : offset < bytes → data offset ≠ 0 →
      NameEnd (offset + 1 + (data offset).toNat) stop → NameEnd offset stop

/-- Where the question part ends, if it ends inside the packet. -/
inductive QuestionsEnd : Nat → Nat → Nat → Prop
  | none (offset : Nat) : QuestionsEnd 0 offset offset
  | question (n offset stop last : Nat) : NameEnd data bytes offset stop → stop + 4 < bytes →
      QuestionsEnd n (stop + 4) last → QuestionsEnd (n + 1) offset last

/-- The records that begin at an offset: the next one begins after the data of this one. -/
def recordOffset (start : Nat) : Nat → Nat
  | 0 => start
  | k + 1 =>
    recordOffset (start + dnsAnsHdrlen + getBE data (start + 10)) k

/-- An A or AAAA record wholly inside the packet. -/
def AddressRecord (offset : Nat) : Prop :=
  isAddress data bytes qtypeIpv4 ip4Bytes offset = true ∨ isAddress data bytes qtypeIpv6 ip6Bytes offset = true

instance (offset : Nat) : Decidable (AddressRecord data bytes offset) :=
  inferInstanceAs (Decidable (_ ∨ _))

/-- The A and AAAA records among the first `k` ones. -/
def addressCount (start k : Nat) : Nat :=
  (List.range k).countP fun j => AddressRecord data bytes (recordOffset data start j)

/-- The condition on the records: the header of each one that begins inside the packet, with fewer than
`DNSCACHE_MAX_RESP` addresses before it, is inside the packet. -/
def HeadersInside (start : Nat) : Prop :=
  ∀ k, recordOffset data start k < bytes → addressCount data bytes start k < dnscacheMaxResp →
    recordOffset data start k + dnsAnsHdrlen ≤ bytes

/-- A record of a response whose name is a compressed pointer. -/
structure Answer where
  name : u8 × u8
  type : Nat
  rdclass : Nat
  ttl : u8 × u8 × u8 × u8
  rdata : List u8

/-- A word in network byte order. -/
def wordBE (word : Nat) : List u8 := [BitVec.ofNat 8 (word / 256), BitVec.ofNat 8 word]

def Answer.encode (a : Answer) : List u8 :=
  [a.name.1, a.name.2] ++ wordBE a.type ++ wordBE a.rdclass ++
    [a.ttl.1, a.ttl.2.1, a.ttl.2.2.1, a.ttl.2.2.2] ++ wordBE a.rdata.length ++ a.rdata

/-- The address in an A or AAAA record. -/
def Answer.address (a : Answer) : Option (List u8) :=
  if a.rdclass = qclassIn ∧ (a.type = qtypeIpv4 ∧ a.rdata.length = ip4Bytes ∨
    a.type = qtypeIpv6 ∧ a.rdata.length = ip6Bytes) then some a.rdata else none

/-- The fields fit into their words, and the name is a pointer. -/
structure Answer.WellFormed (a : Answer) : Prop where
  pointer : 192 ≤ a.name.1.toNat
  type : a.type < 65536
  rdclass : a.rdclass < 65536
  rdata : a.rdata.length < 65536

/-- A question: the labels of its name, its type and its class. -/
structure Question where
  labels : List (List u8)
  footer : u8 × u8 × u8 × u8

def Question.encode (q : Question) : List u8 :=
  q.labels.flatMap (fun l => BitVec.ofNat 8 l.length :: l) ++
    [0, q.footer.1, q.footer.2.1, q.footer.2.2.1, q.footer.2.2.2]

def Question.WellFormed (q : Question) : Prop := ∀ l ∈ q.labels, 1 ≤ l.length ∧ l.length ≤ 63

/-- The bytes of the packet are those of a list. -/
def Holds (packet : List u8) : Prop :=
  packet.length = bytes ∧ ∀ i < bytes, data i = packet.getD i 0

end Packets

/-- **What is claimed** of a response: the parser ends, reads inside the packet, stores at most
`DNSCACHE_MAX_RESP` addresses, only those of records inside the packet, and all those of a well-formed
response, in order; if no records follow the answers, no others. -/
structure Processed (data : Nat → u8) (bytes qdcount ancount : Nat) (r : Crunched) : Prop where
  inside : ∀ i ∈ r.reads, i < bytes
  few : r.responses.length ≤ dnscacheMaxResp
  records : ∀ a ∈ r.responses, ∃ offset length, AddressRecord data bytes offset ∧
    getBE data (offset + 10) = length ∧ a = addressData data length offset
  stored : ∀ (header : List u8) (questions : List Question) (answers : List Answer) (more : List u8),
    Holds data bytes (header ++ questions.flatMap Question.encode ++ answers.flatMap Answer.encode ++ more) →
    header.length = dnsHeaderBytes → questions.length = qdcount → answers.length = ancount →
    (∀ q ∈ questions, q.WellFormed) → (∀ a ∈ answers, a.WellFormed) →
    (answers.filterMap Answer.address).take dnscacheMaxResp <+: r.responses ∧
      (more = [] → r.responses = (answers.filterMap Answer.address).take dnscacheMaxResp)

/-! ## The question part -/

section Questions

variable {data : Nat → u8} {bytes : Nat}

theorem NameEnd.unique {offset stop stop' : Nat} (h : NameEnd data bytes offset stop)
    (h' : NameEnd data bytes offset stop') : stop = stop' := by
  induction h with
  | outside offset hout =>
    cases h' with
    | outside => rfl
    | zero _ hin => omega
    | label _ _ hin => omega
  | zero offset hin hzero =>
    cases h' with
    | outside _ hout => omega
    | zero => rfl
    | label _ _ _ hne => exact absurd hzero hne
  | label offset stop hin hne _ ih =>
    cases h' with
    | outside _ hout => omega
    | zero _ _ hzero => exact absurd hzero hne
    | label _ _ _ _ h' => exact ih h'

variable (data) in
theorem skipName_spec (fuel : Nat) : ∀ offset, bytes ≤ offset + fuel →
    ∃ stop reads, skipName data bytes fuel offset = some (stop, reads) ∧
      NameEnd data bytes offset stop ∧ ∀ i ∈ reads, i < bytes := by
  induction fuel with
  | zero =>
    intro offset hfuel
    refine ⟨offset, [], ?_, .outside offset (by omega), by simp⟩
    rw [skipName, if_neg (by omega)]
  | succ fuel ih =>
    intro offset hfuel
    by_cases hin : offset < bytes
    · by_cases hzero : data offset = 0
      · refine ⟨offset + 1, [offset], ?_, .zero offset hin hzero, by simpa using hin⟩
        rw [skipName, if_pos hin]
        exact if_pos hzero
      · obtain ⟨stop, reads, hrun, hend, hreads⟩ := ih (offset + 1 + (data offset).toNat) (by omega)
        refine ⟨stop, offset :: reads, ?_, .label offset stop hin hzero hend, ?_⟩
        · rw [skipName, if_pos hin]
          simp only [if_neg hzero, hrun, Option.map_some]
        · intro i hi
          rcases List.mem_cons.mp hi with rfl | hi
          · exact hin
          · exact hreads i hi
    · refine ⟨offset, [], ?_, .outside offset (by omega), by simp⟩
      rw [skipName, if_neg hin]

variable (data bytes) in
theorem skipQuestions_spec (qdcount : Nat) : ∀ offset,
    ∃ out reads, skipQuestions data bytes bytes qdcount offset = some (out, reads) ∧
      (∀ i ∈ reads, i < bytes) ∧ ∀ last, out = some last ↔ QuestionsEnd data bytes qdcount offset last := by
  induction qdcount with
  | zero =>
    intro offset
    refine ⟨some offset, [], rfl, by simp, fun last => ⟨fun h => ?_, fun h => ?_⟩⟩
    · obtain rfl := Option.some.inj h
      exact .none offset
    · cases h
      rfl
  | succ n ih =>
    intro offset
    obtain ⟨stop, reads, hrun, hend, hreads⟩ := skipName_spec data bytes offset (Nat.le_add_left _ _)
    by_cases hover : bytes ≤ stop + 4
    · refine ⟨none, reads, ?_, hreads, fun last => ⟨fun h => (by cases h), fun h => ?_⟩⟩
      · rw [skipQuestions, hrun]
        exact if_pos hover
      · cases h with
        | question _ _ stop' _ hend' hin =>
          have := hend.unique hend'
          omega
    · obtain ⟨out, reads', hrun', hreads', hout⟩ := ih (stop + 4)
      refine ⟨out, reads ++ reads', ?_, ?_, fun last => (hout last).trans ⟨fun h => ?_, fun h => ?_⟩⟩
      · rw [skipQuestions, hrun]
        simp only [if_neg hover, hrun', Option.map_some]
      · intro i hi
        exact (List.mem_append.mp hi).elim (hreads i) (hreads' i)
      · exact .question n offset stop last hend (by omega) h
      · cases h with
        | question _ _ stop' _ hend' _ hrest =>
          rwa [hend.unique hend']

end Questions

/-! ## The answers -/

section Answers

variable {data : Nat → u8} {bytes : Nat}

/-- The address of the record, if it is one. -/
def found (data : Nat → u8) (bytes offset : Nat) : List (List u8) :=
  if isAddress data bytes qtypeIpv4 ip4Bytes offset then [addressData data ip4Bytes offset]
  else if isAddress data bytes qtypeIpv6 ip6Bytes offset then [addressData data ip6Bytes offset]
  else []

def foundReads (data : Nat → u8) (bytes offset : Nat) : List Nat :=
  if isAddress data bytes qtypeIpv4 ip4Bytes offset then addressReads ip4Bytes offset
  else if isAddress data bytes qtypeIpv6 ip6Bytes offset then addressReads ip6Bytes offset
  else []

theorem isAddress_iff {type length offset : Nat} : isAddress data bytes type length offset = true ↔
    getBE data (offset + 2) = type ∧ getBE data (offset + 4) = qclassIn ∧
      getBE data (offset + 10) = length ∧ offset + dnsAnsHdrlen + length ≤ bytes := by
  simp only [isAddress, Bool.and_eq_true, decide_eq_true_eq, and_assoc]

theorem not_both {offset : Nat} (h : isAddress data bytes qtypeIpv4 ip4Bytes offset = true) :
    isAddress data bytes qtypeIpv6 ip6Bytes offset = false := by
  by_contra hne
  have h4 := (isAddress_iff.mp h).1
  have h6 := (isAddress_iff.mp (by simpa using hne)).1
  rw [h4] at h6
  exact absurd h6 (by decide)

theorem length_found (offset : Nat) :
    (found data bytes offset).length = if AddressRecord data bytes offset then 1 else 0 := by
  unfold found AddressRecord
  by_cases h4 : isAddress data bytes qtypeIpv4 ip4Bytes offset = true
  · simp [h4]
  · by_cases h6 : isAddress data bytes qtypeIpv6 ip6Bytes offset = true
    · simp [h4, h6]
    · simp [h4, h6]

theorem found_records {offset : Nat} {a : List u8} (h : a ∈ found data bytes offset) :
    ∃ length, AddressRecord data bytes offset ∧ getBE data (offset + 10) = length ∧
      a = addressData data length offset := by
  unfold found at h
  split at h
  · rename_i h4
    exact ⟨_, .inl h4, (isAddress_iff.mp h4).2.2.1, List.mem_singleton.mp h⟩
  · split at h
    · rename_i h6
      exact ⟨_, .inr h6, (isAddress_iff.mp h6).2.2.1, List.mem_singleton.mp h⟩
    · cases h

/-- The reads of an address are inside the packet. -/
theorem foundReads_inside {offset i : Nat} (h : i ∈ foundReads data bytes offset) : i < bytes := by
  have haddress : ∀ {type length}, isAddress data bytes type length offset = true →
      i ∈ addressReads length offset → i < bytes := by
    intro type length hrec hi
    obtain ⟨j, hj, rfl⟩ := List.mem_map.mp hi
    have := (isAddress_iff.mp hrec).2.2.2
    have := List.mem_range.mp hj
    omega
  unfold foundReads at h
  split at h
  · rename_i h4
    exact haddress h4 h
  · split at h
    · rename_i h6
      exact haddress h6 h
    · cases h

/-- One record: its header is read, and its address is stored. -/
theorem crunchRecords_step {fuel offset : Nat} (hin : offset < bytes) (r : Crunched)
    (hfew : r.responses.length < dnscacheMaxResp) :
    crunchRecords data bytes (fuel + 1) offset r =
      let r' : Crunched := ⟨r.responses ++ found data bytes offset,
        r.reads ++ headerReads offset ++ foundReads data bytes offset⟩
      if dnscacheMaxResp ≤ r'.responses.length then some (none, r')
      else crunchRecords data bytes fuel (offset + dnsAnsHdrlen + getBE data (offset + 10)) r' := by
  rw [crunchRecords, if_pos hin]
  unfold store found foundReads
  by_cases h4 : isAddress data bytes qtypeIpv4 ip4Bytes offset = true
  · simp only [h4, not_both h4, if_true, Bool.false_eq_true, if_false, List.length_append,
      List.length_singleton]
    by_cases hfull : dnscacheMaxResp ≤ r.responses.length + 1
    · rw [if_pos ⟨by omega, hfull⟩, if_pos hfull]
    · rw [if_neg (fun h => hfull h.2), if_neg (fun h => hfull h.2), if_neg hfull]
  · simp only [h4, Bool.false_eq_true, if_false]
    rw [if_neg (fun h => absurd h.1 (Nat.lt_irrefl _))]
    by_cases h6 : isAddress data bytes qtypeIpv6 ip6Bytes offset = true
    · simp only [h6, if_true, List.length_append, List.length_singleton]
      by_cases hfull : dnscacheMaxResp ≤ r.responses.length + 1
      · rw [if_pos ⟨by omega, hfull⟩, if_pos hfull]
      · rw [if_neg (fun h => hfull h.2), if_neg hfull]
    · simp only [h6, Bool.false_eq_true, if_false, List.append_nil]
      rw [if_neg (fun h => absurd h.1 (Nat.lt_irrefl _)), if_neg (by omega)]

/-- The condition on the records after `n` addresses. -/
def HeadersFrom (data : Nat → u8) (bytes n start : Nat) : Prop :=
  ∀ k, recordOffset data start k < bytes → n + addressCount data bytes start k < dnscacheMaxResp →
    recordOffset data start k + dnsAnsHdrlen ≤ bytes

theorem addressCount_succ (start k : Nat) : addressCount data bytes start (k + 1) =
    (found data bytes start).length +
      addressCount data bytes (start + dnsAnsHdrlen + getBE data (start + 10)) k := by
  rw [addressCount, List.range_succ_eq_map, List.countP_cons, List.countP_map, length_found, Nat.add_comm]
  simp only [decide_eq_true_eq]
  rfl

/-- The first record, and the others. -/
theorem headersFrom_iff {n start : Nat} (hin : start < bytes) (hn : n < dnscacheMaxResp) :
    HeadersFrom data bytes n start ↔ start + dnsAnsHdrlen ≤ bytes ∧
      HeadersFrom data bytes (n + (found data bytes start).length)
        (start + dnsAnsHdrlen + getBE data (start + 10)) := by
  constructor
  · intro h
    refine ⟨h 0 hin hn, fun k hk hcount => h (k + 1) hk ?_⟩
    rw [addressCount_succ]
    omega
  · rintro ⟨hfirst, hrest⟩ k hk hcount
    cases k with
    | zero => exact hfirst
    | succ k =>
      rw [addressCount_succ] at hcount
      exact hrest k hk (by omega)

/-- What the loop over the records that begin at `offset` makes of `r`. -/
structure Crunches (data : Nat → u8) (bytes offset : Nat) (r : Crunched) (out : Option Nat) (r' : Crunched) :
    Prop where
  stop : ∀ o, out = some o → bytes ≤ o
  inside : (∀ i ∈ r'.reads, i < bytes) ↔
    (∀ i ∈ r.reads, i < bytes) ∧ HeadersFrom data bytes r.responses.length offset
  few : r'.responses.length ≤ dnscacheMaxResp
  kept : r.responses <+: r'.responses
  records : ∀ a ∈ r'.responses, a ∈ r.responses ∨ ∃ offset length, AddressRecord data bytes offset ∧
    getBE data (offset + 10) = length ∧ a = addressData data length offset

variable (data) in
theorem le_recordOffset (k : Nat) : ∀ start, start ≤ recordOffset data start k := by
  induction k with
  | zero => exact fun start => Nat.le_refl _
  | succ k ih =>
    intro start
    refine Nat.le_trans ?_ (ih (start + dnsAnsHdrlen + getBE data (start + 10)))
    omega

/-- At the end of the packet there are no records. -/
theorem crunchRecords_end {fuel offset : Nat} {r : Crunched} (hout : ¬ offset < bytes)
    (hfew : r.responses.length < dnscacheMaxResp) :
    crunchRecords data bytes fuel offset r = some (some offset, r) ∧
      Crunches data bytes offset r (some offset) r := by
  refine ⟨by cases fuel <;> rw [crunchRecords, if_neg hout], fun o ho => ?_,
    ⟨fun h => ⟨h, fun k hk => ?_⟩, fun h => h.1⟩, Nat.le_of_lt hfew, List.prefix_refl _, fun a ha => .inl ha⟩
  · obtain rfl := Option.some.inj ho
    omega
  · have := le_recordOffset data k offset
    omega

variable (data bytes) in
/-- **The loop over the records.** -/
theorem crunchRecords_spec (fuel : Nat) : ∀ (offset : Nat) (r : Crunched), bytes ≤ offset + fuel →
    r.responses.length < dnscacheMaxResp →
    ∃ out r', crunchRecords data bytes fuel offset r = some (out, r') ∧
      Crunches data bytes offset r out r' := by
  induction fuel with
  | zero => exact fun offset r hfuel hfew => ⟨_, _, crunchRecords_end (by omega) hfew⟩
  | succ fuel ih =>
    intro offset r hfuel hfew
    by_cases hin : offset < bytes
    · have hheader : (∀ i ∈ headerReads offset, i < bytes) ↔ offset + dnsAnsHdrlen ≤ bytes := by
        simp only [headerReads, List.forall_mem_cons, dnsAnsHdrlen, List.not_mem_nil, false_implies,
          implies_true, and_true]
        omega
      have hreads : (∀ i ∈ r.reads ++ headerReads offset ++ foundReads data bytes offset, i < bytes) ↔
          (∀ i ∈ r.reads, i < bytes) ∧ offset + dnsAnsHdrlen ≤ bytes := by
        rw [List.forall_mem_append, List.forall_mem_append, hheader]
        exact ⟨fun h => h.1, fun h => ⟨h, fun i hi => foundReads_inside hi⟩⟩
      rw [crunchRecords_step hin r hfew]
      dsimp only
      by_cases hfull : dnscacheMaxResp ≤ (r.responses ++ found data bytes offset).length
      · rw [if_pos hfull]
        refine ⟨none, _, rfl, by simp, ?_, ?_, List.prefix_append _ _, fun a ha => ?_⟩
        · rw [hreads, headersFrom_iff hin hfew]
          refine and_congr_right fun _ => ⟨fun h => ⟨h, fun k _ hcount => ?_⟩, fun h => h.1⟩
          rw [List.length_append] at hfull
          omega
        · rw [List.length_append, length_found]
          split <;> omega
        · rcases List.mem_append.mp ha with ha | ha
          · exact .inl ha
          · exact .inr ⟨offset, found_records ha⟩
      · rw [if_neg hfull]
        obtain ⟨out, r', hrun, h⟩ := ih (offset + dnsAnsHdrlen + getBE data (offset + 10))
          ⟨r.responses ++ found data bytes offset,
            r.reads ++ headerReads offset ++ foundReads data bytes offset⟩
          (by simp only [dnsAnsHdrlen]; omega) (Nat.not_le.mp hfull)
        refine ⟨out, r', hrun, h.stop, ?_, h.few, (List.prefix_append _ _).trans h.kept, fun a ha => ?_⟩
        · rw [h.inside, hreads, headersFrom_iff hin hfew, List.length_append, and_assoc]
        · rcases h.records a ha with ha | hrec
          · rcases List.mem_append.mp ha with ha | ha
            · exact .inl ha
            · exact .inr ⟨offset, found_records ha⟩
          · exact .inr hrec
    · exact ⟨_, _, crunchRecords_end hin hfew⟩

end Answers

/-! ## Well-formed responses -/

section WellFormed

variable {data : Nat → u8} {bytes : Nat}

/-- The bytes of a list are at an offset. -/
def At (data : Nat → u8) (offset : Nat) (l : List u8) : Prop := ∀ i < l.length, data (offset + i) = l.getD i 0

theorem at_append {offset : Nat} {l m : List u8} :
    At data offset (l ++ m) ↔ At data offset l ∧ At data (offset + l.length) m := by
  constructor
  · intro h
    refine ⟨fun i hi => ?_, fun i hi => ?_⟩
    · rw [h i (by rw [List.length_append]; omega), List.getD_append _ _ _ _ hi]
    · rw [Nat.add_assoc, h _ (by rw [List.length_append]; omega),
        List.getD_append_right _ _ _ _ (by omega), Nat.add_sub_cancel_left]
  · rintro ⟨hl, hm⟩ i hi
    by_cases hil : i < l.length
    · rw [hl i hil, List.getD_append _ _ _ _ hil]
    · have := hm (i - l.length) (by rw [List.length_append] at hi; omega)
      rw [Nat.add_assoc, Nat.add_sub_cancel' (by omega)] at this
      rw [this, List.getD_append_right _ _ _ _ (by omega)]

theorem getBE_word {offset word : Nat} (h : At data offset (wordBE word)) (hw : word < 65536) :
    getBE data offset = word := by
  have h0 : data offset = BitVec.ofNat 8 (word / 256) := h 0 (by simp [wordBE])
  have h1 : data (offset + 1) = BitVec.ofNat 8 word := h 1 (by simp [wordBE])
  rw [getBE, h0, h1, BitVec.toNat_ofNat, BitVec.toNat_ofNat]
  omega

theorem Answer.length_encode (a : Answer) : a.encode.length = dnsAnsHdrlen + a.rdata.length := by
  simp [Answer.encode, wordBE, dnsAnsHdrlen]
  omega

/-- The record of an answer. -/
theorem found_answer {offset : Nat} {a : Answer} (h : At data offset a.encode) (hw : a.WellFormed)
    (hin : offset + a.encode.length ≤ bytes) :
    getBE data (offset + 10) = a.rdata.length ∧ found data bytes offset = a.address.toList := by
  rw [a.length_encode] at hin
  unfold Answer.encode at h
  obtain ⟨h, hdata⟩ := at_append.mp h
  obtain ⟨h, hlength⟩ := at_append.mp h
  obtain ⟨h, -⟩ := at_append.mp h
  obtain ⟨h, hclass⟩ := at_append.mp h
  obtain ⟨-, htype⟩ := at_append.mp h
  have htype : getBE data (offset + 2) = a.type := getBE_word htype hw.type
  have hclass : getBE data (offset + 4) = a.rdclass := getBE_word hclass hw.rdclass
  have hlength : getBE data (offset + 10) = a.rdata.length := getBE_word hlength hw.rdata
  have hrdata : ∀ {length}, a.rdata.length = length → addressData data length offset = a.rdata := by
    rintro length rfl
    refine List.ext_getElem (by simp [addressData]) fun i hi hi' => ?_
    have := hdata i hi'
    simp only [addressData, List.getElem_map, List.getElem_range]
    rw [List.getElem_eq_getD 0]
    exact this
  refine ⟨hlength, ?_⟩
  have haddress : ∀ {type length}, isAddress data bytes type length offset = true ↔
      a.type = type ∧ a.rdclass = qclassIn ∧ a.rdata.length = length := by
    intro type length
    rw [isAddress_iff, htype, hclass, hlength]
    refine and_congr_right fun _ => and_congr_right fun _ => ⟨fun h => h.1, fun h => ⟨h, ?_⟩⟩
    omega
  unfold found Answer.address
  by_cases h4 : a.type = qtypeIpv4 ∧ a.rdclass = qclassIn ∧ a.rdata.length = ip4Bytes
  · rw [if_pos (haddress.mpr h4), hrdata h4.2.2, if_pos ⟨h4.2.1, .inl ⟨h4.1, h4.2.2⟩⟩]
    rfl
  · rw [if_neg (fun h => h4 (haddress.mp h))]
    by_cases h6 : a.type = qtypeIpv6 ∧ a.rdclass = qclassIn ∧ a.rdata.length = ip6Bytes
    · rw [if_pos (haddress.mpr h6), hrdata h6.2.2, if_pos ⟨h6.2.1, .inr ⟨h6.1, h6.2.2⟩⟩]
      rfl
    · rw [if_neg (fun h => h6 (haddress.mp h)), if_neg]
      · rfl
      · rintro ⟨hc, ⟨ht, hl⟩ | ⟨ht, hl⟩⟩
        · exact h4 ⟨ht, hc, hl⟩
        · exact h6 ⟨ht, hc, hl⟩

/-- The addresses of the answers are stored in order. -/
theorem crunchRecords_stored (answers : List Answer) : ∀ (fuel offset : Nat) (r : Crunched),
    bytes ≤ offset + fuel → r.responses.length < dnscacheMaxResp →
    At data offset (answers.flatMap Answer.encode) →
    offset + (answers.flatMap Answer.encode).length ≤ bytes → (∀ a ∈ answers, a.WellFormed) →
    ∃ out r', crunchRecords data bytes fuel offset r = some (out, r') ∧
      (r.responses ++ answers.filterMap Answer.address).take dnscacheMaxResp <+: r'.responses ∧
      (offset + (answers.flatMap Answer.encode).length = bytes →
        r'.responses = (r.responses ++ answers.filterMap Answer.address).take dnscacheMaxResp) := by
  induction answers with
  | nil =>
    intro fuel offset r hfuel hfew _ _ _
    obtain ⟨out, r', hrun, h⟩ := crunchRecords_spec data bytes fuel offset r hfuel hfew
    have htake : (r.responses ++ [].filterMap Answer.address).take dnscacheMaxResp = r.responses := by
      rw [List.filterMap_nil, List.append_nil, List.take_of_length_le (Nat.le_of_lt hfew)]
    rw [htake]
    refine ⟨out, r', hrun, h.kept, fun hend => ?_⟩
    have hout : ¬ offset < bytes := by
      rw [List.flatMap_nil, List.length_nil] at hend
      omega
    rw [(crunchRecords_end hout hfew).1] at hrun
    rw [← (Prod.mk.inj (Option.some.inj hrun)).2]
  | cons a answers ih =>
    intro fuel offset r hfuel hfew hat hin hw
    rw [List.flatMap_cons] at hat hin ⊢
    rw [List.length_append] at hin ⊢
    obtain ⟨hat, hrest⟩ := at_append.mp hat
    have hfit : offset + a.encode.length ≤ bytes := by omega
    obtain ⟨hlength, hfound⟩ := found_answer hat (hw a List.mem_cons_self) hfit
    have hstart : offset < bytes := by
      rw [a.length_encode, dnsAnsHdrlen] at hin
      omega
    have hnext : offset + dnsAnsHdrlen + getBE data (offset + 10) = offset + a.encode.length := by
      rw [hlength, a.length_encode, Nat.add_assoc]
    have hall : a.address.toList ++ answers.filterMap Answer.address =
        (a :: answers).filterMap Answer.address := by
      rw [List.filterMap_cons]
      cases a.address <;> rfl
    obtain ⟨fuel, rfl⟩ : ∃ f, fuel = f + 1 := ⟨fuel - 1, by omega⟩
    rw [crunchRecords_step hstart r hfew, hnext, hfound]
    dsimp only
    by_cases hfull : dnscacheMaxResp ≤ (r.responses ++ a.address.toList).length
    · rw [if_pos hfull, ← hall, ← List.append_assoc, List.take_append_of_le_length hfull,
        List.take_of_length_le]
      · exact ⟨none, _, rfl, List.prefix_refl _, fun _ => rfl⟩
      · rw [← hfound, List.length_append, length_found]
        split <;> omega
    · rw [if_neg hfull]
      obtain ⟨out, r', hrun, hfront, hend⟩ := ih fuel (offset + a.encode.length)
        ⟨r.responses ++ a.address.toList, r.reads ++ headerReads offset ++ foundReads data bytes offset⟩
        (by rw [a.length_encode, dnsAnsHdrlen]; omega) (Nat.not_le.mp hfull) hrest (by omega)
        fun b hb => hw b (List.mem_cons_of_mem _ hb)
      rw [← hall, ← List.append_assoc]
      exact ⟨out, r', hrun, hfront, fun he => hend (by omega)⟩

theorem nameEnd_labels (labels : List (List u8)) : ∀ offset,
    (∀ l ∈ labels, 1 ≤ l.length ∧ l.length ≤ 63) →
    At data offset (labels.flatMap (fun l => BitVec.ofNat 8 l.length :: l) ++ [0]) →
    offset + (labels.flatMap (fun l => BitVec.ofNat 8 l.length :: l)).length < bytes →
    NameEnd data bytes offset
      (offset + (labels.flatMap (fun l => BitVec.ofNat 8 l.length :: l)).length + 1) := by
  induction labels with
  | nil =>
    intro offset _ hat hin
    exact .zero offset hin (hat 0 (by simp))
  | cons l labels ih =>
    intro offset hw hat hin
    obtain ⟨hpos, hle⟩ := hw l List.mem_cons_self
    rw [List.flatMap_cons, List.append_assoc] at hat
    rw [List.flatMap_cons, List.length_append, List.length_cons] at hin ⊢
    obtain ⟨hl, hrest⟩ := at_append.mp hat
    rw [List.length_cons] at hrest
    have hbyte : data offset = BitVec.ofNat 8 l.length := hl 0 (by simp)
    have hn : (data offset).toNat = l.length := by
      rw [hbyte, BitVec.toNat_ofNat]
      omega
    have hne : data offset ≠ 0 := by
      intro h0
      rw [h0] at hn
      exact absurd hn (by simp; omega)
    refine .label offset _ (by omega) hne ?_
    have hnext : offset + 1 + (data offset).toNat = offset + (l.length + 1) := by omega
    rw [hnext]
    have := ih (offset + (l.length + 1)) (fun b hb => hw b (List.mem_cons_of_mem _ hb)) hrest (by omega)
    rwa [Nat.add_assoc offset] at this

theorem questionsEnd_questions (questions : List Question) : ∀ offset,
    (∀ q ∈ questions, q.WellFormed) → At data offset (questions.flatMap Question.encode) →
    offset + (questions.flatMap Question.encode).length < bytes →
    QuestionsEnd data bytes questions.length offset
      (offset + (questions.flatMap Question.encode).length) := by
  induction questions with
  | nil => exact fun offset _ _ _ => .none offset
  | cons q questions ih =>
    intro offset hw hat hin
    rw [List.flatMap_cons] at hat hin ⊢
    rw [List.length_append] at hin ⊢
    obtain ⟨hq, hrest⟩ := at_append.mp hat
    have hlen : q.encode.length =
        (q.labels.flatMap (fun l => BitVec.ofNat 8 l.length :: l)).length + 1 + 4 := by
      simp [Question.encode]
    have hname : At data offset (q.labels.flatMap (fun l => BitVec.ofNat 8 l.length :: l) ++ [0]) := by
      have hsplit : q.encode = q.labels.flatMap (fun l => BitVec.ofNat 8 l.length :: l) ++ [0] ++
          [q.footer.1, q.footer.2.1, q.footer.2.2.1, q.footer.2.2.2] := by
        simp [Question.encode]
      rw [hsplit] at hq
      exact (at_append.mp hq).1
    have hstop := nameEnd_labels q.labels offset (hw q List.mem_cons_self) hname
      (show _ < bytes by omega)
    refine .question _ offset _ _ hstop (show _ < bytes by omega) ?_
    have hnext := ih (offset + q.encode.length) (fun b hb => hw b (List.mem_cons_of_mem _ hb)) hrest (by omega)
    have hlast : offset + q.encode.length =
        offset + (q.labels.flatMap (fun l => BitVec.ofNat 8 l.length :: l)).length + 1 + 4 := by omega
    rw [hlast] at hnext
    rwa [← Nat.add_assoc, hlast]

end WellFormed

/-- The bytes of a part of the packet are where it begins. -/
theorem Holds.at_part {data : Nat → u8} {bytes : Nat} {before part after : List u8}
    (h : Holds data bytes (before ++ part ++ after)) : At data before.length part := by
  intro i hi
  obtain ⟨hlen, hget⟩ := h
  rw [List.length_append, List.length_append] at hlen
  rw [hget _ (by omega), List.getD_append _ _ _ _ (by rw [List.length_append]; omega),
    List.getD_append_right _ _ _ _ (by omega), Nat.add_sub_cancel_left]

/-! ## The parser -/

section Parser

variable {data : Nat → u8} {bytes : Nat}

theorem headersFrom_zero (start : Nat) : HeadersFrom data bytes 0 start ↔ HeadersInside data bytes start := by
  simp only [HeadersFrom, HeadersInside, Nat.zero_add]

/-- The condition under which the parser reads inside the packet. -/
def RecordsInside (data : Nat → u8) (bytes qdcount ancount : Nat) : Prop :=
  ∀ start, 0 < ancount → QuestionsEnd data bytes qdcount dnsHeaderBytes start →
    HeadersInside data bytes start

variable (data bytes) in
/-- What the parser does with any packet. -/
theorem processDNSResponse_spec (qdcount ancount : Nat) :
    ∃ r, processDNSResponse data bytes bytes qdcount ancount = some r ∧
      ((∀ i ∈ r.reads, i < bytes) ↔ RecordsInside data bytes qdcount ancount) ∧
      ((∀ i ∈ r.reads, i < bytes) → Processed data bytes qdcount ancount r) := by
  obtain ⟨out, reads, hquestions, hreads, hout⟩ :=
    skipQuestions_spec data bytes qdcount dnsHeaderBytes
  -- a response that has answers gets to them
  have hanswers : ∀ (header : List u8) (questions : List Question) (answers : List Answer) (more : List u8),
      Holds data bytes
        (header ++ questions.flatMap Question.encode ++ answers.flatMap Answer.encode ++ more) →
      header.length = dnsHeaderBytes → questions.length = qdcount → answers ≠ [] →
      (∀ q ∈ questions, q.WellFormed) →
      QuestionsEnd data bytes qdcount dnsHeaderBytes
        (dnsHeaderBytes + (questions.flatMap Question.encode).length) := by
    intro header questions answers more hholds hheader hq hne hqw
    obtain ⟨a, answers, rfl⟩ := List.exists_cons_of_ne_nil hne
    have hlen := hholds.1
    simp only [List.length_append, List.flatMap_cons, a.length_encode, dnsAnsHdrlen, hheader] at hlen
    have hat : At data dnsHeaderBytes (questions.flatMap Question.encode) := by
      rw [← hheader]
      rw [List.append_assoc] at hholds
      exact hholds.at_part
    have := questionsEnd_questions questions dnsHeaderBytes hqw hat (show _ < bytes by omega)
    rwa [hq] at this
  have hnothing : ∀ {r : Crunched}, r = ⟨[], reads⟩ → (ancount = 0 ∨ out = none) →
      ((∀ i ∈ r.reads, i < bytes) ↔ RecordsInside data bytes qdcount ancount) ∧
      ((∀ i ∈ r.reads, i < bytes) → Processed data bytes qdcount ancount r) := by
    rintro r rfl hnone
    refine ⟨iff_of_true hreads fun start hpos hend => ?_, fun hin => ⟨hin, Nat.zero_le _, by simp, ?_⟩⟩
    · rcases hnone with h0 | hnone
      · omega
      · have := (hout start).mpr hend
        rw [hnone] at this
        cases this
    · intro header questions answers more hholds hheader hq ha hqw _
      cases answers with
      | nil => exact ⟨List.nil_prefix, fun _ => rfl⟩
      | cons a answers =>
        have hend := hanswers header questions (a :: answers) more hholds hheader hq
          (List.cons_ne_nil _ _) hqw
        rcases hnone with h0 | hnone
        · rw [h0] at ha
          cases ha
        · have := (hout _).mpr hend
          rw [hnone] at this
          cases this
  unfold processDNSResponse
  rw [hquestions]
  cases out with
  | none => exact ⟨_, rfl, hnothing rfl (.inr rfl)⟩
  | some start =>
    cases ancount with
    | zero => exact ⟨_, rfl, hnothing rfl (.inl rfl)⟩
    | succ n =>
      have hstart : QuestionsEnd data bytes qdcount dnsHeaderBytes start := (hout start).mp rfl
      obtain ⟨out', r', hrun, h⟩ := crunchRecords_spec data bytes bytes start
        ⟨[], reads⟩ (Nat.le_add_left _ _) (show 0 < dnscacheMaxResp by decide)
      have hcrunch : crunchAnswers data bytes bytes (n + 1) start ⟨[], reads⟩ = some r' := by
        rw [crunchAnswers, hrun]
        cases out' with
        | none => rfl
        | some o => exact if_pos (h.stop o rfl)
      refine ⟨r', hcrunch, ?_, fun hin => ⟨hin, h.few, fun a ha => ?_, ?_⟩⟩
      · rw [h.inside]
        refine ⟨fun hr s _ hs => ?_, fun hr => ⟨hreads, ?_⟩⟩
        · have hss : some start = some s := (hout s).mpr hs
          obtain rfl := Option.some.inj hss
          exact (headersFrom_zero start).mp hr.2
        · exact (headersFrom_zero start).mpr (hr start (Nat.succ_pos n) hstart)
      · exact (h.records a ha).resolve_left List.not_mem_nil
      · intro header questions answers more hholds hheader hq ha hqw haw
        have hne : answers ≠ [] := by
          rintro rfl
          cases ha
        have hend := hanswers header questions answers more hholds hheader hq hne hqw
        have hss : some start = some _ := (hout _).mpr hend
        obtain rfl := Option.some.inj hss
        have hlen := hholds.1
        simp only [List.length_append, hheader] at hlen
        have hat := hholds.at_part
        rw [List.length_append, hheader] at hat
        obtain ⟨out₂, r₂, hrun₂, hfront, hall⟩ := crunchRecords_stored answers bytes _ ⟨[], reads⟩
          (Nat.le_add_left _ _) (show 0 < dnscacheMaxResp by decide) hat (by omega) haw
        rw [hrun] at hrun₂
        obtain rfl := (Prod.mk.inj (Option.some.inj hrun₂)).2
        refine ⟨hfront, fun hmore => hall ?_⟩
        rw [hmore, List.length_nil] at hlen
        omega

/-- The parser does all that is claimed of it, exactly if each record that it comes to has its header
inside the packet. -/
theorem process_dns_response (data : Nat → u8) (bytes qdcount ancount : Nat) :
    (∃ r, processDNSResponse data bytes bytes qdcount ancount = some r ∧
      Processed data bytes qdcount ancount r) ↔ RecordsInside data bytes qdcount ancount := by
  obtain ⟨r, hrun, hinside, hprocessed⟩ := processDNSResponse_spec data bytes qdcount ancount
  constructor
  · rintro ⟨r', hrun', h⟩
    rw [hrun] at hrun'
    obtain rfl := Option.some.inj hrun'
    exact hinside.mp h.inside
  · intro h
    exact ⟨r, hrun, hprocessed (hinside.mpr h)⟩

/-- A packet with one byte after its header, and one answer announced: its record is read behind the packet. -/
theorem not_process_dns_response :
    ¬ ∃ r, processDNSResponse (fun _ => 0) 13 13 0 1 = some r ∧ Processed (fun _ => 0) 13 0 1 r := by
  rintro ⟨r, hrun, h⟩
  have hreads : (processDNSResponse (fun _ => 0) 13 13 0 1).map Crunched.reads =
      some [14, 15, 16, 17, 22, 23] := by decide
  rw [hrun] at hreads
  have := h.inside 14 (by rw [Option.some.inj hreads]; decide)
  omega

end Parser

end Libcat.Net.DNSClient
