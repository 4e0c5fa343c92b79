import Libcat.Crypt.Skein

/-!
# Password verification

`SaltHash` and `VerifyHash` of the password verifier. Skein is a function `skein` of the bytes it
absorbs; `absorb_hash_salt` says that the pieces the two functions crunch are absorbed as their
concatenation.

`SaltHash` crunches the hash and then the salt, `VerifyHash` the salt and then the hash.
`verifies_iff` says when that makes no difference.
-/

namespace Libcat.Crypt

def hashBits : Nat := 256
def hashBytes : Nat := hashBits / 8

/-- The salt as it lies in memory. -/
def saltBytes (salt : u32) : List u8 := Bytes.toBytes 4 salt

section Verifier

variable {α : Type} (skein : List u8 → α)

/-- `SaltHash`, with the salt drawn. -/
def saltHash (hash : List u8) (salt : u32) : α := skein [hash, saltBytes salt].flatten

/-- `VerifyHash`. -/
def verifyHash [DecidableEq α] (hash : List u8) (saltedHash : α) (salt : u32) : Bool :=
  decide (saltedHash = skein [saltBytes salt, hash].flatten)

/-- The hash verifies against its salted hash, and no other hash does. -/
def Verifies [DecidableEq α] (hash : List u8) (salt : u32) : Prop :=
  verifyHash skein hash (saltHash skein hash salt) salt = true ∧
    ∀ other, other.length = hashBytes → other ≠ hash →
      verifyHash skein other (saltHash skein hash salt) salt = false

end Verifier

theorem length_saltBytes (salt : u32) : (saltBytes salt).length = 4 := Bytes.length_toBytes _ _

/-- Neither order of the two pieces reaches the defect of `Crunch`. -/
theorem absorb_hash_salt {hash : List u8} (hlen : hash.length = hashBytes) (salt : u32) :
    Streams (.beginKey hashBits (by decide)) [hash, saltBytes salt] ∧
      Streams (.beginKey hashBits (by decide)) [saltBytes salt, hash] := by
  have hs := length_saltBytes salt
  constructor
  · refine streams_of_fits ?_
    simp only [Fits, hlen, hs]
    decide
  · refine streams_of_fits ?_
    simp only [Fits, hlen, hs]
    decide

/-- A list that commutes with a shorter one repeats it. -/
theorem eq_replicate_of_commute {s : List u8} : ∀ (k : Nat) {h : List u8},
    h.length = k * s.length → h ++ s = s ++ h → h = (List.replicate k s).flatten := by
  intro k
  induction k with
  | zero =>
    intro h hlen _
    exact List.length_eq_zero_iff.mp (by omega)
  | succ k ih =>
    intro h hlen hcomm
    have hle : s.length ≤ h.length := by
      rw [hlen, Nat.succ_mul]
      omega
    have htake : h.take s.length = s := by
      have := congrArg (List.take s.length) hcomm
      rwa [List.take_append_of_le_length hle, List.take_left] at this
    obtain ⟨t, rfl⟩ : ∃ t, h = s ++ t := ⟨h.drop s.length, by
      conv_lhs => rw [← List.take_append_drop s.length h, htake]⟩
    have hlen' : t.length = k * s.length := by
      rw [List.length_append, Nat.succ_mul] at hlen
      omega
    rw [List.append_assoc] at hcomm
    rw [List.replicate_succ, List.flatten_cons, ← ih hlen' (List.append_cancel_left hcomm)]

theorem commute_replicate (s : List u8) (k : Nat) :
    (List.replicate k s).flatten ++ s = s ++ (List.replicate k s).flatten := by
  have h : (List.replicate k s).flatten ++ s = (List.replicate (k + 1) s).flatten := by
    rw [List.replicate_succ', List.flatten_append]
    simp
  rw [h, List.replicate_succ, List.flatten_cons]

theorem verifyHash_iff {α : Type} [DecidableEq α] {skein : List u8 → α}
    (hinj : Function.Injective skein) (hash other : List u8) (salt : u32) :
    verifyHash skein other (saltHash skein hash salt) salt = true ↔
      hash ++ saltBytes salt = saltBytes salt ++ other := by
  unfold verifyHash saltHash
  rw [decide_eq_true_iff, hinj.eq_iff]
  simp

/-- **Password verification.** For any injective Skein, a hash verifies against its salted hash, and
no other one does, exactly if the hash is the salt eight times over. -/
theorem verifies_iff {α : Type} [DecidableEq α] (skein : List u8 → α)
    (hinj : Function.Injective skein) (hash : List u8) (hlen : hash.length = hashBytes) (salt : u32) :
    Verifies skein hash salt ↔ hash = (List.replicate 8 (saltBytes salt)).flatten := by
  constructor
  · rintro ⟨h, -⟩
    refine eq_replicate_of_commute 8 ?_ ((verifyHash_iff hinj _ _ _).mp h)
    rw [hlen, length_saltBytes]
    rfl
  · rintro rfl
    have hcomm := commute_replicate (saltBytes salt) 8
    refine ⟨(verifyHash_iff hinj _ _ _).mpr hcomm, fun other _ hne => ?_⟩
    rw [Bool.eq_false_iff, Ne, verifyHash_iff hinj, hcomm]
    exact fun h => hne (List.append_cancel_left h).symm

/-- The condition met, with a Skein that keeps what it absorbs. -/
theorem verifies_repeated :
    Verifies (id : List u8 → List u8) (List.replicate 8 (saltBytes 1)).flatten 1 :=
  (verifies_iff id Function.injective_id _ (by decide) 1).mpr rfl

/-- A hash of zeroes with salt 1 does not verify. -/
theorem not_verifies_zero :
    ¬ Verifies (id : List u8 → List u8) (List.replicate 32 0) 1 := by
  rintro ⟨h, -⟩
  revert h
  decide

end Libcat.Crypt
