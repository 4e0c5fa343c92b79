import Libcat.Lib.Bytes
import Libcat.Math.BitMath
import Mathlib.GroupTheory.OrderOfElement
import Mathlib.NumberTheory.LucasPrimality

/-!
# Tabby key agreement

`KeyAgreementInitiator` and `KeyAgreementResponder`: the exchange of a challenge and an answer that
gives both of them a key, the signatures of the responder, and the proof of the initiator's identity.

The curve is a commutative group with a generator of prime order `q`, and a register is a word of
`KeyBytes` bytes. Skein is a function of what it absorbs (`Transcript`), and the random generator is
the list of blocks it is going to give out. A loop that waits for a good block has no result when the
list ends.

- `Curve` is what the two sides need of the curve, `initiatorT` and `responderT` their secrets.
- `initiatorT_eq` says when the two are the same, `schnorrVerify_sign` that signatures are accepted.
-/

namespace Libcat.Crypt

/-- A register of `KeyBytes` bytes. -/
abbrev Reg (keyBytes : Nat) := BitVec (8 * keyBytes)

variable {K : Nat}

namespace Reg

/-- `Load`. -/
def load (bytes : List u8) : Reg K := Bytes.ofBytes bytes

/-- `Save`. -/
def save (x : Reg K) : List u8 := Bytes.toBytes K x

/-- `Double`, with the carry. -/
def double (x : Reg K) : Bool × Reg K := (decide (2 ^ (8 * K) ≤ x.toNat + x.toNat), x + x)

/-- `Add`, with the carry. -/
def add (x y : Reg K) : Bool × Reg K := (decide (2 ^ (8 * K) ≤ x.toNat + y.toNat), x + y)

/-- `Subtract`, with the borrow. -/
def subtract (x y : Reg K) : Bool × Reg K := (decide (x < y), x - y)

/-- `MulMod`. -/
def mulMod (x y m : Reg K) : Reg K := BitVec.ofNat _ (x.toNat * y.toNat % m.toNat)

/-- The order of the group is not zero, which is why the loops below end. -/
theorem sub_lt {q x : Reg K} (hq : q ≠ 0) (hx : q ≤ x) : (x - q).toNat < x.toNat := by
  have hpos : 0 < q.toNat := Nat.pos_of_ne_zero fun h => hq (BitVec.eq_of_toNat_eq (by simpa using h))
  have hle : q.toNat ≤ x.toNat := hx
  rw [BitVec.toNat_sub_of_le hx]
  omega

/-- `while (!Less(x, q)) Subtract(x, q, x);`. -/
def reduce (q x : Reg K) : Reg K :=
  if _h : q ≠ 0 ∧ q ≤ x then reduce q (x - q) else x
termination_by x.toNat
decreasing_by exact sub_lt _h.1 _h.2

/-- `while (!Subtract(x, q, x));`. -/
def subtractUntilBorrow (q x : Reg K) : Reg K :=
  if _h : q ≠ 0 ∧ q ≤ x then subtractUntilBorrow q (x - q) else x - q
termination_by x.toNat
decreasing_by exact sub_lt _h.1 _h.2

end Reg

/-- What a Skein object has absorbed, from `BeginKey`, `BeginKDF` or `BeginMAC` to `End`. -/
inductive Transcript where
  | key (bits : Nat) (bytes : List u8)
  | kdf (parent : Transcript) (bytes : List u8)
  | mac (parent : Transcript) (bytes : List u8)

/-- `Generate`, by what was absorbed and the number of bytes. -/
structure SkeinOutput where
  generate : Transcript → Nat → List u8
  length_generate : ∀ t n, (generate t n).length = n

/-- The curve of `BigTwistedEdwards`. -/
structure Curve (K : Nat) (G : Type) [AddCommGroup G] where
  generator : G
  curveQ : Reg K
  saveAffineX : G → List u8
  saveAffineXY : G → List u8
  loadVerifyAffineXY : List u8 → Option G
  prime : curveQ.toNat.Prime
  order : addOrderOf generator = curveQ.toNat
  above : 2 ^ (8 * K - 2) < curveQ.toNat
  below : curveQ.toNat < 2 ^ (8 * K - 1)
  load_save : ∀ P, loadVerifyAffineXY (saveAffineXY P) = some P
  length_saveAffineX : ∀ P, (saveAffineX P).length = K
  length_saveAffineXY : ∀ P, (saveAffineXY P).length = 2 * K

/-- `TunnelKeyPair`. -/
structure KeyPair where
  privateKey : List u8
  publicKey : List u8

/-- The sizes that `KeyAgreementCommon::Initialize` accepts. -/
def acceptsBits (bits : Nat) : Bool := bits == 256 || bits == 384 || bits == 512

section Model

variable {G : Type} [AddCommGroup G] (curve : Curve K G) (skein : SkeinOutput)

namespace Curve

/-- `PtMultiply` of the generator. -/
def baseMultiply (k : Reg K) : G := k.toNat • curve.generator

/-- `PtDoubleZ1` and `PtEDouble`. -/
def cofactor (P : G) : G := (P + P) + (P + P)

/-- `GenerateKey`. -/
def generateKey : List (Reg K) → Option (Reg K × List (Reg K))
  | [] => none
  | draw :: draws =>
    let key := draw &&& ~~~BitVec.twoPow _ (8 * K - 1)
    if ¬key < curve.curveQ ∨ ¬1 < key then generateKey draws else some (key, draws)

/-- `ah`: four times `a`, with `q` taken off at a carry only. -/
def ah (a : Reg K) : Reg K :=
  let (carry, ah) := a.double
  let ah := if carry then (ah.subtract curve.curveQ).2 else ah
  let (carry, ah) := ah.double
  if carry then (ah.subtract curve.curveQ).2 else ah

/-- `T` in `KeyAgreementInitiator::ProcessAnswer`. -/
def initiatorT (S a : Reg K) (B Y : G) : List u8 :=
  curve.saveAffineX ((curve.ah a).toNat • B + (S.mulMod a curve.curveQ).toNat • cofactor Y)

/-- `S*y + b (mod q)`. -/
def responderScalar (S y b : Reg K) : Reg K :=
  let T := S.mulMod y curve.curveQ
  let (carry, T) := T.add b
  let T := if carry then (T.subtract curve.curveQ).2 else T
  Reg.reduce curve.curveQ T

/-- `T` in `KeyAgreementResponder::ProcessChallenge`. -/
def responderT (S y b : Reg K) (A : G) : List u8 :=
  curve.saveAffineX ((curve.responderScalar S y b).toNat • cofactor A)

/-- `s = k - secret * e (mod q)`. -/
def signScalar (secret e k : Reg K) : Reg K :=
  let s := secret.mulMod e curve.curveQ
  let s := if s ≠ 0 then (curve.curveQ.subtract s).2 else s
  let (carry, s) := s.add k
  let s := if carry then Reg.subtractUntilBorrow curve.curveQ s else s
  Reg.reduce curve.curveQ s

end Curve

/-- `e = H(M || K)`, as bytes. -/
def schnorrHash (message : List u8) (P : G) : List u8 :=
  skein.generate (.key (8 * K) (message ++ curve.saveAffineX P)) K

theorem Curve.generateKey_length {draws rest : List (Reg K)} {key : Reg K}
    (h : curve.generateKey draws = some (key, rest)) : rest.length < draws.length := by
  induction draws with
  | nil => simp [generateKey] at h
  | cons draw draws ih =>
    rw [generateKey] at h
    split at h
    · have := ih h
      rw [List.length_cons]
      omega
    · obtain ⟨-, rfl⟩ := Prod.mk.inj (Option.some.inj h)
      exact Nat.lt_succ_self _

/-- The two loops that sign, in `Sign` and in `ProcessAnswerWithIdentity`. -/
def schnorrSign (message : List u8) (secret : Reg K) (draws : List (Reg K)) :
    Option (List u8 × List (Reg K)) :=
  match _h : curve.generateKey draws with
  | none => none
  | some (k, rest) =>
    let hash := schnorrHash curve skein message (curve.baseMultiply k)
    let e := Reg.reduce curve.curveQ (Reg.load hash)
    if e = 0 then schnorrSign message secret rest
    else
      let s := curve.signScalar secret e k
      if s = 0 then schnorrSign message secret rest else some (hash ++ s.save, rest)
termination_by draws.length
decreasing_by all_goals exact curve.generateKey_length _h

/-- The check of a signature, in `Verify` and in `VerifyInitiatorIdentity`. -/
def schnorrVerify (message : List u8) (P : G) (signature : List u8) : Bool :=
  let e := Reg.reduce curve.curveQ (Reg.load (signature.take K))
  let s := Reg.load ((signature.drop K).take K)
  if e = 0 ∨ s = 0 ∨ ¬e < curve.curveQ ∨ ¬s < curve.curveQ then false
  else
    decide (signature.take K =
      schnorrHash curve skein message (s.toNat • curve.generator + e.toNat • P))

/-- The string the responder proves its key with. -/
def proofName : List u8 :=
  [0x73, 0x68, 0x66, 0x6f, 0x6c, 0x64, 0x65, 0x72, 0x2e, 0x64, 0x6c, 0x6c, 0]

/-- `KeyAgreementResponder`. -/
structure Responder (K : Nat) where
  b : Reg K
  bNeutral : List u8
  y : Bool → Reg K
  yNeutral : Bool → List u8
  activeY : Bool
  challengeCount : u32

/-- `KeyAgreementInitiator`; `identity` is `I_private` and `I_public`. -/
structure Initiator (K : Nat) (G : Type) where
  B : G
  bNeutral : List u8
  a : Reg K
  aNeutral : List u8
  identity : Option (Reg K × List u8)

namespace Responder

/-- `Rekey`. -/
def rekey (self : Responder K) (draws : List (Reg K)) : Option (Responder K × List (Reg K)) := do
  let nextY := !self.activeY
  let (key, draws) ← curve.generateKey draws
  let Y := curve.saveAffineXY (curve.baseMultiply key)
  return ({ self with
              y := Function.update self.y nextY key
              yNeutral := Function.update self.yNeutral nextY Y
              activeY := nextY
              challengeCount := 0 }, draws)

/-- The count of the challenges, and the rekeying after a hundred of them. -/
def countChallenge (self : Responder K) (draws : List (Reg K)) :
    Option (Responder K × List (Reg K)) :=
  let counted := { self with challengeCount := self.challengeCount + 1 }
  if self.challengeCount = 100 then counted.rekey curve draws else some (counted, draws)

/-- The loop that draws `r`, with `r` and `S`. -/
def drawNonce (before : List u8) : List (Reg K) → Option (Reg K × Reg K × List (Reg K))
  | [] => none
  | r :: draws =>
    let S : Reg K := Reg.load (skein.generate (.key (8 * K) (before ++ r.save)) K)
    if S.toNat < 1000 then drawNonce before draws else some (r, S, draws)

variable [DecidableEq G]

/-- `Initialize`. -/
def initializeWith (keyPair : KeyPair) (draws : List (Reg K)) :
    Option (Responder K × List (Reg K)) :=
  if !acceptsBits (8 * K) ∨ keyPair.privateKey.length ≠ K ∨ keyPair.publicKey.length ≠ 2 * K then
    none
  else do
    let B ← curve.loadVerifyAffineXY keyPair.publicKey
    if B = 0 then none
    else
      rekey curve
        { b := Reg.load keyPair.privateKey
          bNeutral := keyPair.publicKey
          y := fun _ => 0
          yNeutral := fun _ => []
          activeY := false
          challengeCount := 0 } draws

/-- `ProcessChallenge`: the answer and the key, or the refusal. -/
def processChallenge (self : Responder K) (challenge : List u8) (draws : List (Reg K)) :
    Option (Option (List u8 × Transcript) × Responder K × List (Reg K)) :=
  match curve.loadVerifyAffineXY challenge with
  | none => some (none, self, draws)
  | some A =>
    if A = 0 then some (none, self, draws)
    else do
      let (self, draws) ← self.countChallenge curve draws
      let Y := self.yNeutral self.activeY
      let (r, S, draws) ← drawNonce skein (challenge ++ self.bNeutral ++ Y) draws
      let T := curve.responderT S (self.y self.activeY) self.b A
      let keyHash := Transcript.kdf (.key (8 * K) (challenge ++ self.bNeutral ++ Y ++ r.save)) T
      let proof := skein.generate (.mac keyHash proofName) K
      return (some (Y ++ r.save ++ proof, keyHash), self, draws)

/-- `Sign`. -/
def sign (self : Responder K) (message : List u8) (draws : List (Reg K)) :
    Option (List u8 × List (Reg K)) :=
  schnorrSign curve skein message self.b draws

/-- `VerifyInitiatorIdentity`, with the public key on success. -/
def verifyInitiatorIdentity (answer proof : List u8) : Option (List u8) := do
  let publicKey := proof.take (2 * K)
  let message := (proof.drop (2 * K)).take K ++ (answer.drop (2 * K)).take K
  let I ← curve.loadVerifyAffineXY publicKey
  if I = 0 then none
  else if schnorrVerify curve skein message I (proof.drop (3 * K)) then some publicKey
  else none

end Responder

namespace Initiator

/-- `GenerateChallenge`. -/
def generateChallenge (self : Initiator K G) (draws : List (Reg K)) :
    Option (List u8 × Initiator K G × List (Reg K)) := do
  let (a, draws) ← curve.generateKey draws
  let challenge := curve.saveAffineXY (curve.baseMultiply a)
  return (challenge, { self with
                         a := a
                         aNeutral := challenge }, draws)

/-- `Verify`. -/
def verify (self : Initiator K G) (message signature : List u8) : Bool :=
  schnorrVerify curve skein message self.B signature

variable [DecidableEq G]

/-- `Initialize`. -/
def initializeWith (publicKey : List u8) : Option (Initiator K G) :=
  if !acceptsBits (8 * K) ∨ publicKey.length ≠ 2 * K then none
  else do
    let B ← curve.loadVerifyAffineXY publicKey
    if B = 0 then none
    else
      some
        { B := B
          bNeutral := publicKey
          a := 0
          aNeutral := []
          identity := none }

/-- `SetIdentity`. -/
def setIdentity (self : Initiator K G) (keyPair : KeyPair) : Option (Initiator K G) := do
  let I ← curve.loadVerifyAffineXY keyPair.publicKey
  if I = 0 then none
  else some { self with identity := some (Reg.load keyPair.privateKey, keyPair.publicKey) }

/-- `ProcessAnswer`: the key, or the refusal. -/
def processAnswer (self : Initiator K G) (answer : List u8) : Option Transcript := do
  let Y ← curve.loadVerifyAffineXY (answer.take (2 * K))
  if Y = 0 then none
  else
    let keyHash := Transcript.key (8 * K) (self.aNeutral ++ self.bNeutral ++ answer.take (3 * K))
    let S : Reg K := Reg.load (skein.generate keyHash K)
    if S.toNat < 1000 then none
    else
      let T := curve.initiatorT S self.a self.B Y
      let keyHash := Transcript.kdf keyHash T
      let expected := skein.generate (.mac keyHash proofName) K
      if expected = (answer.drop (3 * K)).take K then some keyHash else none

/-- `ProcessAnswerWithIdentity`: the key and the proof, or the refusal. -/
def processAnswerWithIdentity (self : Initiator K G) (answer : List u8) (draws : List (Reg K)) :
    Option (Option (Transcript × List u8) × List (Reg K)) :=
  match self.processAnswer curve skein answer, self.identity, draws with
  | none, _, draws => some (none, draws)
  | some keyHash, some (secret, publicKey), nonce :: draws => do
    let message := nonce.save ++ (answer.drop (2 * K)).take K
    let (signature, draws) ← schnorrSign curve skein message secret draws
    return (some (keyHash, publicKey ++ nonce.save ++ signature), draws)
  | _, _, _ => none

end Initiator

end Model

/-! ## Registers -/

namespace Reg

theorem load_save (x : Reg K) : load x.save = x := Bytes.ofBytes_toBytes x.isLt

@[simp] theorem length_save (x : Reg K) : x.save.length = K := Bytes.length_toBytes _ _

theorem subtract_toNat {x y : Reg K} (h : y.toNat ≤ x.toNat) :
    (x.subtract y).2.toNat = x.toNat - y.toNat :=
  BitVec.toNat_sub_of_le h

/-- A carry makes up for the borrow. -/
theorem subtract_carry {x y q : Reg K} (hcarry : 2 ^ (8 * K) ≤ x.toNat + y.toNat)
    (hlt : x.toNat + y.toNat < 2 ^ (8 * K) + q.toNat) :
    ((x + y).subtract q).2.toNat = x.toNat + y.toNat - q.toNat := by
  have hx := x.isLt
  have hy := y.isLt
  have hq := q.isLt
  have hmod : (x.toNat + y.toNat) % 2 ^ (8 * K) = x.toNat + y.toNat - 2 ^ (8 * K) := by
    rw [Nat.mod_eq_sub_mod hcarry, Nat.mod_eq_of_lt (by omega)]
  show (x + y - q).toNat = _
  rw [BitVec.toNat_sub, BitVec.toNat_add, hmod, Nat.mod_eq_of_lt (by omega)]
  omega

theorem reduce_toNat {q : Reg K} (hq : 0 < q.toNat) (x : Reg K) :
    (reduce q x).toNat = x.toNat % q.toNat := by
  fun_induction reduce q x with
  | case1 x h ih =>
    have hle : q.toNat ≤ x.toNat := h.2
    rw [ih, BitVec.toNat_sub_of_le h.2, ← Nat.mod_eq_sub_mod hle]
  | case2 x h =>
    have hne : q ≠ 0 := by
      rintro rfl
      simp at hq
    have hlt : x.toNat < q.toNat := by
      by_contra hle
      exact h ⟨hne, Nat.le_of_not_lt hle⟩
    rw [Nat.mod_eq_of_lt hlt]

theorem mulMod_toNat {m : Reg K} (hm : 0 < m.toNat) (x y : Reg K) :
    (x.mulMod y m).toNat = x.toNat * y.toNat % m.toNat := by
  have hlt := Nat.mod_lt (x.toNat * y.toNat) hm
  rw [mulMod, BitVec.toNat_ofNat, Nat.mod_eq_of_lt (hlt.trans m.isLt)]

theorem toNat_eq_zero {x : Reg K} : x.toNat = 0 ↔ x = 0 := by
  rw [← BitVec.toNat_inj]
  simp

end Reg

/-! ## Scalars and points -/

section Scalars

variable {G : Type} [AddCommGroup G] {curve : Curve K G}

namespace Curve

theorem q_pos (curve : Curve K G) : 0 < curve.curveQ.toNat := curve.prime.pos

theorem two_q_lt (curve : Curve K G) : 2 * curve.curveQ.toNat < 2 ^ (8 * K) := by
  have h := curve.below
  have htwo := curve.prime.two_le
  have hpos : 0 < 8 * K := by
    by_contra h0
    have hone : 2 ^ (8 * K - 1) = 1 := by rw [show 8 * K - 1 = 0 by omega, Nat.pow_zero]
    omega
  have hpow : 2 ^ (8 * K) = 2 * 2 ^ (8 * K - 1) := by
    rw [← Nat.pow_succ']
    congr 1
    omega
  omega

/-- Secrets are in the range 1 < key < q. -/
def InRange (curve : Curve K G) (key : Reg K) : Prop :=
  1 < key.toNat ∧ key.toNat < curve.curveQ.toNat

theorem generateKey_inRange {draws rest : List (Reg K)} {key : Reg K}
    (h : curve.generateKey draws = some (key, rest)) : curve.InRange key := by
  induction draws with
  | nil => simp [generateKey] at h
  | cons draw draws ih =>
    rw [generateKey] at h
    split at h
    · exact ih h
    · rename_i hrange
      obtain ⟨rfl, -⟩ := Prod.mk.inj (Option.some.inj h)
      rw [not_or, not_not, not_not] at hrange
      have hlow : (1 : Reg K).toNat < _ := hrange.2
      refine ⟨?_, hrange.1⟩
      have hone : (1 : Reg K).toNat = 1 := by
        have hpos := curve.two_q_lt
        have := curve.q_pos
        show 1 % 2 ^ (8 * K) = 1
        exact Nat.mod_eq_of_lt (by omega)
      omega

/-- `a*h`, whatever the corrections do, when a carry leaves less than `q`. -/
theorem ah_modEq {a : Reg K} (ha : curve.InRange a)
    (h : 4 * a.toNat < 2 ^ (8 * K) + curve.curveQ.toNat) :
    (curve.ah a).toNat ≡ 4 * a.toNat [MOD curve.curveQ.toNat] := by
  have hlt := curve.two_q_lt
  have haq := ha.2
  have hdouble : (a + a).toNat = a.toNat + a.toNat := by
    rw [BitVec.toNat_add, Nat.mod_eq_of_lt (by omega)]
  have hfirst : a.double = (false, a + a) := by
    rw [Reg.double, decide_eq_false (by omega)]
  unfold ah
  rw [hfirst]
  simp only [Bool.false_eq_true, if_false, Reg.double, decide_eq_true_eq]
  split
  · rename_i hcarry
    rw [hdouble] at hcarry
    rw [Reg.subtract_carry (by rw [hdouble]; exact hcarry) (by rw [hdouble]; omega), hdouble]
    refine (Nat.modEq_of_dvd ⟨1, ?_⟩)
    push_cast [show curve.curveQ.toNat ≤ a.toNat + a.toNat + (a.toNat + a.toNat) by omega]
    ring
  · rename_i hcarry
    rw [hdouble] at hcarry
    rw [BitVec.toNat_add, hdouble, Nat.mod_eq_of_lt (by omega),
      show a.toNat + a.toNat + (a.toNat + a.toNat) = 4 * a.toNat by omega]

theorem responderScalar_toNat (S y b : Reg K) :
    (curve.responderScalar S y b).toNat = (S.toNat * y.toNat + b.toNat) % curve.curveQ.toNat := by
  have hq := curve.q_pos
  have hT := Reg.mulMod_toNat hq S y
  have hlt := Nat.mod_lt (S.toNat * y.toNat) hq
  have hb := b.isLt
  simp only [responderScalar, Reg.add, decide_eq_true_eq]
  rw [Reg.reduce_toNat hq]
  split
  · rename_i hcarry
    rw [Reg.subtract_carry hcarry (by omega), hT, ← Nat.mod_eq_sub_mod (by omega), Nat.mod_add_mod]
  · rename_i hcarry
    rw [BitVec.toNat_add, Nat.mod_eq_of_lt (Nat.lt_of_not_le hcarry), hT, Nat.mod_add_mod]

theorem signScalar_spec {secret e k : Reg K} (hk : curve.InRange k) :
    (curve.signScalar secret e k).toNat < curve.curveQ.toNat ∧
      (curve.signScalar secret e k).toNat + secret.toNat * e.toNat ≡ k.toNat
        [MOD curve.curveQ.toNat] := by
  have hq := curve.q_pos
  have hlt := curve.two_q_lt
  have hkq := hk.2
  have hmul := Reg.mulMod_toNat hq secret e
  have hmulLt := Nat.mod_lt (secret.toNat * e.toNat) hq
  -- the negative of `secret * e`
  obtain ⟨neg, hneg, hnegLt, hnegMod⟩ : ∃ neg : Reg K,
      (if secret.mulMod e curve.curveQ ≠ 0 then
        (curve.curveQ.subtract (secret.mulMod e curve.curveQ)).2
      else secret.mulMod e curve.curveQ) = neg ∧ neg.toNat < curve.curveQ.toNat ∧
        neg.toNat + secret.toNat * e.toNat ≡ 0 [MOD curve.curveQ.toNat] := by
    refine ⟨_, rfl, ?_⟩
    split
    · rename_i hne
      have hpos : (secret.mulMod e curve.curveQ).toNat ≠ 0 := fun h => hne (Reg.toNat_eq_zero.mp h)
      rw [Reg.subtract_toNat (by omega), hmul]
      refine ⟨by omega, ?_⟩
      rw [Nat.ModEq, Nat.add_mod, Nat.mod_eq_of_lt (a := _ - _) (by omega), Nat.sub_add_cancel
        (by omega), Nat.mod_self, Nat.zero_mod]
    · rename_i hzero
      rw [not_not] at hzero
      have h0 := Reg.toNat_eq_zero.mpr hzero
      rw [h0]
      refine ⟨hq, ?_⟩
      rw [Nat.ModEq, Nat.zero_add, ← hmul, h0, Nat.zero_mod]
  have hsum : neg.add k = (false, neg + k) := by
    rw [Reg.add, decide_eq_false (by omega)]
  have hs : (curve.signScalar secret e k).toNat =
      (neg.toNat + k.toNat) % curve.curveQ.toNat := by
    simp only [signScalar, hneg, hsum, Bool.false_eq_true, if_false]
    rw [Reg.reduce_toNat hq, BitVec.toNat_add,
      Nat.mod_eq_of_lt (show neg.toNat + k.toNat < 2 ^ (8 * K) by omega)]
  refine ⟨hs ▸ Nat.mod_lt _ hq, ?_⟩
  rw [hs]
  calc (neg.toNat + k.toNat) % curve.curveQ.toNat + secret.toNat * e.toNat
      ≡ neg.toNat + k.toNat + secret.toNat * e.toNat [MOD curve.curveQ.toNat] :=
        (Nat.mod_modEq _ _).add_right _
    _ = neg.toNat + secret.toNat * e.toNat + k.toNat := by ring
    _ ≡ 0 + k.toNat [MOD curve.curveQ.toNat] := hnegMod.add_right _
    _ = k.toNat := Nat.zero_add _

theorem nsmul_generator {m n : Nat} :
    m • curve.generator = n • curve.generator ↔ m ≡ n [MOD curve.curveQ.toNat] := by
  rw [nsmul_eq_nsmul_iff_modEq, curve.order]

theorem cofactor_nsmul (n : Nat) (P : G) : cofactor (n • P) = (4 * n) • P := by
  rw [cofactor]
  module

theorem baseMultiply_ne_zero {key : Reg K} (h : curve.InRange key) :
    curve.baseMultiply key ≠ 0 := by
  intro h0
  have hmod := curve.nsmul_generator.mp (h0.trans (zero_nsmul curve.generator).symm)
  have := h.1
  rw [Nat.ModEq, Nat.mod_eq_of_lt h.2, Nat.zero_mod] at hmod
  omega

/-- **The secrets are the same** on both sides. -/
theorem initiatorT_eq {a : Reg K} (ha : curve.InRange a)
    (h : 4 * a.toNat < 2 ^ (8 * K) + curve.curveQ.toNat) (S y b : Reg K) :
    curve.initiatorT S a (curve.baseMultiply b) (curve.baseMultiply y) =
      curve.responderT S y b (curve.baseMultiply a) := by
  have hq := curve.q_pos
  rw [initiatorT, responderT]
  congr 1
  rw [baseMultiply, baseMultiply, baseMultiply, cofactor_nsmul, cofactor_nsmul, ← mul_nsmul',
    ← mul_nsmul', ← mul_nsmul', ← add_nsmul, nsmul_generator, Reg.mulMod_toNat hq,
    responderScalar_toNat]
  calc (curve.ah a).toNat * b.toNat + S.toNat * a.toNat % curve.curveQ.toNat * (4 * y.toNat)
      ≡ 4 * a.toNat * b.toNat + S.toNat * a.toNat * (4 * y.toNat) [MOD curve.curveQ.toNat] :=
        ((ah_modEq ha h).mul_right _).add ((Nat.mod_modEq _ _).mul_right _)
    _ = (S.toNat * y.toNat + b.toNat) * (4 * a.toNat) := by ring
    _ ≡ (S.toNat * y.toNat + b.toNat) % curve.curveQ.toNat * (4 * a.toNat)
        [MOD curve.curveQ.toNat] := ((Nat.mod_modEq _ _).mul_right _).symm

/-- A carry that leaves `q` or more is corrected too little. -/
theorem ah_add {a : Reg K} (ha : curve.InRange a)
    (h : 2 ^ (8 * K) + curve.curveQ.toNat ≤ 4 * a.toNat) :
    (curve.ah a).toNat + 2 ^ (8 * K) + curve.curveQ.toNat = 4 * a.toNat := by
  have hlt := curve.two_q_lt
  have haq := ha.2
  have hdouble : (a + a).toNat = a.toNat + a.toNat := by
    rw [BitVec.toNat_add, Nat.mod_eq_of_lt (by omega)]
  have hfirst : a.double = (false, a + a) := by
    rw [Reg.double, decide_eq_false (by omega)]
  have hfour : (a + a + (a + a)).toNat = 4 * a.toNat - 2 ^ (8 * K) := by
    rw [BitVec.toNat_add, hdouble, Nat.mod_eq_sub_mod (by omega), Nat.mod_eq_of_lt (by omega)]
    omega
  unfold ah
  rw [hfirst]
  simp only [Bool.false_eq_true, if_false, Reg.double, decide_eq_true_eq]
  rw [if_pos (by omega), Reg.subtract_toNat (by omega), hfour]
  omega

/-- The secrets differ when `4 * a` is too large, if points can be told apart. -/
theorem initiatorT_ne {a b : Reg K} (hinj : Function.Injective curve.saveAffineX)
    (ha : curve.InRange a) (h : 2 ^ (8 * K) + curve.curveQ.toNat ≤ 4 * a.toNat)
    (hb : curve.baseMultiply b ≠ 0) (S y : Reg K) :
    curve.initiatorT S a (curve.baseMultiply b) (curve.baseMultiply y) ≠
      curve.responderT S y b (curve.baseMultiply a) := by
  intro heq
  have hq := curve.q_pos
  have hpoint := hinj heq
  rw [baseMultiply, baseMultiply, baseMultiply, cofactor_nsmul, cofactor_nsmul, ← mul_nsmul',
    ← mul_nsmul', ← mul_nsmul', ← add_nsmul, nsmul_generator, Reg.mulMod_toNat hq,
    responderScalar_toNat, ← ah_add ha h] at hpoint
  have hmod : (curve.ah a).toNat * b.toNat + S.toNat * a.toNat * (4 * y.toNat) ≡
      (curve.ah a).toNat * b.toNat + S.toNat * a.toNat * (4 * y.toNat) + 2 ^ (8 * K) * b.toNat
        [MOD curve.curveQ.toNat] :=
    calc (curve.ah a).toNat * b.toNat + S.toNat * a.toNat * (4 * y.toNat)
        ≡ (curve.ah a).toNat * b.toNat + S.toNat * a.toNat % curve.curveQ.toNat * (4 * y.toNat)
          [MOD curve.curveQ.toNat] := ((Nat.mod_modEq _ _).mul_right _).symm.add_left _
      _ ≡ _ [MOD curve.curveQ.toNat] := hpoint
      _ ≡ (S.toNat * y.toNat + b.toNat) * (4 * a.toNat) [MOD curve.curveQ.toNat] := by
        rw [ah_add ha h]
        exact (Nat.mod_modEq _ _).mul_right _
      _ = 4 * a.toNat * b.toNat + S.toNat * a.toNat * (4 * y.toNat) := by ring
      _ = (curve.ah a).toNat * b.toNat + S.toNat * a.toNat * (4 * y.toNat) +
          2 ^ (8 * K) * b.toNat + curve.curveQ.toNat * b.toNat := by
        rw [← ah_add ha h]
        ring
      _ ≡ _ [MOD curve.curveQ.toNat] := by
        rw [Nat.ModEq, Nat.add_mul_mod_self_left]
  have hdvd : curve.curveQ.toNat ∣ 2 ^ (8 * K) * b.toNat := by
    rw [← Nat.modEq_zero_iff_dvd]
    exact (Nat.ModEq.add_left_cancel' _ (show _ + 0 ≡ _ + _ [MOD _] from hmod)).symm
  rcases curve.prime.dvd_mul.mp hdvd with h2 | hdvdB
  · have htwo := (Nat.prime_dvd_prime_iff_eq curve.prime Nat.prime_two).mp
      (curve.prime.dvd_of_dvd_pow h2)
    have := ha.1
    have := ha.2
    omega
  · refine hb ?_
    rw [baseMultiply, ← zero_nsmul curve.generator, nsmul_generator]
    exact Nat.modEq_zero_iff_dvd.mpr hdvdB

end Curve

end Scalars

/-! ## Signatures -/

section Signatures

variable {G : Type} [AddCommGroup G] {curve : Curve K G} {skein : SkeinOutput}

theorem length_schnorrHash (message : List u8) (P : G) :
    (schnorrHash curve skein message P).length = K := skein.length_generate _ _

/-- A commitment, a challenge and the response to it. -/
theorem schnorrVerify_response {message : List u8} {secret e k s : Reg K} (hk : curve.InRange k)
    (he : e = Reg.reduce curve.curveQ
      (Reg.load (schnorrHash curve skein message (curve.baseMultiply k))))
    (hs : s = curve.signScalar secret e k) (he0 : e ≠ 0) (hs0 : s ≠ 0) :
    schnorrVerify curve skein message (curve.baseMultiply secret)
      (schnorrHash curve skein message (curve.baseMultiply k) ++ s.save) = true := by
  have hlen := @length_schnorrHash _ _ _ curve skein message (curve.baseMultiply k)
  have heq : e < curve.curveQ := by
    rw [he]
    show (Reg.reduce _ _).toNat < _
    rw [Reg.reduce_toNat curve.q_pos]
    exact Nat.mod_lt _ curve.q_pos
  obtain ⟨hsq, hmod⟩ := Curve.signScalar_spec (e := e) hk
  rw [← hs] at hsq hmod
  have hpoint : s.toNat • curve.generator + e.toNat • curve.baseMultiply secret =
      curve.baseMultiply k := by
    rw [Curve.baseMultiply, ← mul_nsmul', ← add_nsmul, Curve.baseMultiply, Curve.nsmul_generator,
      Nat.mul_comm e.toNat]
    exact hmod
  have htake : (s.save).take K = s.save := List.take_of_length_le (Reg.length_save s).le
  simp only [schnorrVerify, List.take_left' hlen, List.drop_left' hlen, htake, Reg.load_save, ← he,
    hpoint]
  rw [if_neg]
  · simp
  · rintro (h | h | h | h)
    · exact he0 h
    · exact hs0 h
    · exact h heq
    · exact h hsq

/-- **Signatures are accepted.** -/
theorem schnorrVerify_sign {message signature : List u8} {secret : Reg K}
    {draws rest : List (Reg K)}
    (h : schnorrSign curve skein message secret draws = some (signature, rest)) :
    schnorrVerify curve skein message (curve.baseMultiply secret) signature = true := by
  fun_induction schnorrSign curve skein message secret draws with
  | case1 => simp at h
  | case2 draws k rest' hkey hash e he0 ih => exact ih h
  | case3 draws k rest' hkey hash e he0 s hs0 ih => exact ih h
  | case4 draws k rest' hkey hash e he0 s hs0 =>
    obtain ⟨rfl, -⟩ := Prod.mk.inj (Option.some.inj h)
    exact schnorrVerify_response (Curve.generateKey_inRange hkey) rfl rfl he0 hs0

end Signatures

/-! ## The exchange -/

section Exchange

variable {G : Type} [AddCommGroup G] {curve : Curve K G} {skein : SkeinOutput}

/-- The pair of a private key and its point. -/
def Curve.keyPair (curve : Curve K G) (secret : Reg K) : KeyPair where
  privateKey := secret.save
  publicKey := curve.saveAffineXY (curve.baseMultiply secret)

/-- A responder that has the key pair of `b` and a drawn secret in use. -/
structure Responder.Holds (curve : Curve K G) (b : Reg K) (r : Responder K) : Prop where
  b_eq : r.b = b
  bNeutral : r.bNeutral = curve.saveAffineXY (curve.baseMultiply b)
  inRange : curve.InRange (r.y r.activeY)
  yNeutral : r.yNeutral r.activeY = curve.saveAffineXY (curve.baseMultiply (r.y r.activeY))

/-- An initiator that knows the public key of `b`, and has a point for its own identity. -/
structure Initiator.Knows (curve : Curve K G) (b : Reg K) (i : Initiator K G) : Prop where
  B_eq : i.B = curve.baseMultiply b
  bNeutral : i.bNeutral = curve.saveAffineXY (curve.baseMultiply b)
  identity : ∀ secret publicKey, i.identity = some (secret, publicKey) →
    publicKey = curve.saveAffineXY (curve.baseMultiply secret) ∧ curve.baseMultiply secret ≠ 0

namespace Responder

theorem rekey_holds {b : Reg K} {self self' : Responder K} {draws rest : List (Reg K)}
    (hb : self.b = b) (hneutral : self.bNeutral = curve.saveAffineXY (curve.baseMultiply b))
    (h : self.rekey curve draws = some (self', rest)) : self'.Holds curve b := by
  simp only [rekey, Option.bind_eq_bind, Option.bind_eq_some_iff, Option.pure_def,
    Option.some.injEq, Prod.mk.injEq, Prod.exists] at h
  obtain ⟨key, draws', hkey, rfl, -⟩ := h
  refine ⟨hb, hneutral, ?_, ?_⟩
  · simpa using Curve.generateKey_inRange hkey
  · simp

theorem Holds.countChallenge {b : Reg K} {self self' : Responder K} {draws rest : List (Reg K)}
    (hself : self.Holds curve b) (h : self.countChallenge curve draws = some (self', rest)) :
    self'.Holds curve b := by
  obtain ⟨hb, hneutral, hrange, hY⟩ := hself
  rw [Responder.countChallenge] at h
  split at h
  · exact rekey_holds hb hneutral h
  · obtain ⟨rfl, -⟩ := Prod.mk.inj (Option.some.inj h)
    exact ⟨hb, hneutral, hrange, hY⟩

theorem drawNonce_spec {before : List u8} {draws rest : List (Reg K)} {r S : Reg K}
    (h : drawNonce skein before draws = some (r, S, rest)) :
    S = Reg.load (skein.generate (.key (8 * K) (before ++ r.save)) K) ∧ ¬S.toNat < 1000 := by
  induction draws with
  | nil => simp [drawNonce] at h
  | cons r' draws ih =>
    rw [drawNonce] at h
    split at h
    · exact ih h
    · rename_i hsmall
      simp only [Option.some.injEq, Prod.mk.injEq] at h
      obtain ⟨rfl, rfl, -⟩ := h
      exact ⟨rfl, hsmall⟩

variable [DecidableEq G]

theorem initializeWith_holds {b : Reg K} {self : Responder K} {draws rest : List (Reg K)}
    (h : initializeWith curve (curve.keyPair b) draws = some (self, rest)) :
    self.Holds curve b := by
  rw [initializeWith] at h
  split at h
  · cases h
  · rw [Curve.keyPair, curve.load_save, Option.bind_eq_bind, Option.bind_some] at h
    split at h
    · cases h
    · exact rekey_holds (Reg.load_save b) rfl h

/-- The cases of `ProcessChallenge`. -/
theorem processChallenge_cases {self self' : Responder K} {challenge : List u8}
    {draws rest : List (Reg K)} {result : Option (List u8 × Transcript)}
    (h : self.processChallenge curve skein challenge draws = some (result, self', rest)) :
    ((∀ A, curve.loadVerifyAffineXY challenge = some A → A = 0) ∧ result = none ∧ self' = self) ∨
    ∃ A draws' r S, curve.loadVerifyAffineXY challenge = some A ∧ A ≠ 0 ∧
      self.countChallenge curve draws = some (self', draws') ∧
      drawNonce skein (challenge ++ self'.bNeutral ++ self'.yNeutral self'.activeY) draws' =
        some (r, S, rest) ∧
      result = some (self'.yNeutral self'.activeY ++ r.save ++ skein.generate (.mac (.kdf
        (.key (8 * K) (challenge ++ self'.bNeutral ++ self'.yNeutral self'.activeY ++ r.save))
        (curve.responderT S (self'.y self'.activeY) self'.b A)) proofName) K, .kdf
        (.key (8 * K) (challenge ++ self'.bNeutral ++ self'.yNeutral self'.activeY ++ r.save))
        (curve.responderT S (self'.y self'.activeY) self'.b A)) := by
  rw [processChallenge] at h
  split at h
  · rename_i hload
    simp only [Option.some.injEq, Prod.mk.injEq] at h
    obtain ⟨rfl, rfl, -⟩ := h
    exact .inl ⟨fun A hA => by simp [hload] at hA, rfl, rfl⟩
  · rename_i A hload
    split at h
    · rename_i h0
      simp only [Option.some.injEq, Prod.mk.injEq] at h
      obtain ⟨rfl, rfl, -⟩ := h
      refine .inl ⟨fun A' hA' => ?_, rfl, rfl⟩
      rw [hload] at hA'
      rwa [← Option.some.inj hA']
    · rename_i h0
      simp only [Option.bind_eq_bind, Option.bind_eq_some_iff, Option.pure_def,
        Option.some.injEq, Prod.mk.injEq, Prod.exists] at h
      obtain ⟨counted, draws', hcount, r, S, rest', hnonce, rfl, rfl, rfl⟩ := h
      exact .inr ⟨A, draws', r, S, hload, h0, hcount, hnonce, rfl⟩

/-- The responders that `Initialize` and the challenges of anyone make. -/
inductive Reachable (curve : Curve K G) (skein : SkeinOutput) (keyPair : KeyPair) :
    Responder K → Prop where
  | initializeWith {self : Responder K} {draws rest : List (Reg K)} :
    initializeWith curve keyPair draws = some (self, rest) → Reachable curve skein keyPair self
  | processChallenge {self self' : Responder K} {challenge : List u8} {draws rest : List (Reg K)}
      {result : Option (List u8 × Transcript)} :
    Reachable curve skein keyPair self →
      self.processChallenge curve skein challenge draws = some (result, self', rest) →
        Reachable curve skein keyPair self'

theorem Reachable.holds {b : Reg K} {self : Responder K}
    (h : Reachable curve skein (curve.keyPair b) self) : self.Holds curve b := by
  induction h with
  | initializeWith h => exact initializeWith_holds h
  | processChallenge _ h ih =>
    obtain ⟨-, -, rfl⟩ | ⟨A, draws', r, S, -, -, hcount, -, -⟩ := processChallenge_cases h
    · exact ih
    · exact ih.countChallenge hcount

end Responder

namespace Initiator

variable [DecidableEq G]

/-- The initiators that `Initialize`, `SetIdentity` and `GenerateChallenge` make. -/
inductive Reachable (curve : Curve K G) (publicKey : List u8) : Initiator K G → Prop where
  | initializeWith {self : Initiator K G} :
    initializeWith curve publicKey = some self → Reachable curve publicKey self
  | setIdentity {self self' : Initiator K G} (secret : Reg K) :
    Reachable curve publicKey self → self.setIdentity curve (curve.keyPair secret) = some self' →
      Reachable curve publicKey self'
  | generateChallenge {self self' : Initiator K G} {challenge : List u8}
      {draws rest : List (Reg K)} :
    Reachable curve publicKey self →
      self.generateChallenge curve draws = some (challenge, self', rest) →
        Reachable curve publicKey self'

omit [DecidableEq G] in
theorem generateChallenge_spec {self self' : Initiator K G} {challenge : List u8}
    {draws rest : List (Reg K)}
    (h : self.generateChallenge curve draws = some (challenge, self', rest)) :
    curve.InRange self'.a ∧ challenge = curve.saveAffineXY (curve.baseMultiply self'.a) ∧
      self' = { self with
                  a := self'.a
                  aNeutral := challenge } := by
  simp only [generateChallenge, Option.bind_eq_bind, Option.bind_eq_some_iff, Option.pure_def,
    Option.some.injEq, Prod.mk.injEq, Prod.exists] at h
  obtain ⟨a, draws', hkey, rfl, rfl, -⟩ := h
  exact ⟨Curve.generateKey_inRange hkey, rfl, rfl⟩

theorem Reachable.knows {b : Reg K} {self : Initiator K G}
    (h : Reachable curve (curve.keyPair b).publicKey self) : self.Knows curve b := by
  induction h with
  | initializeWith h =>
    rw [Initiator.initializeWith] at h
    split at h
    · cases h
    · rw [Curve.keyPair, curve.load_save, Option.bind_eq_bind, Option.bind_some] at h
      split at h
      · cases h
      · cases h
        exact ⟨rfl, rfl, by simp⟩
  | setIdentity secret _ h ih =>
    rw [Initiator.setIdentity, Curve.keyPair, curve.load_save, Option.bind_eq_bind,
      Option.bind_some] at h
    split at h
    · cases h
    · rename_i hne
      cases h
      refine ⟨ih.B_eq, ih.bNeutral, ?_⟩
      rintro secret' publicKey' heq
      obtain ⟨rfl, rfl⟩ := Prod.mk.inj (Option.some.inj heq)
      rw [Reg.load_save]
      exact ⟨rfl, hne⟩
  | generateChallenge _ h ih =>
    rw [(generateChallenge_spec h).2.2]
    exact ⟨ih.B_eq, ih.bNeutral, ih.identity⟩

/-- **An answer is accepted**, and it gives the key of the responder. -/
theorem processAnswer_answer {b : Reg K} {self : Initiator K G} {responder responder' : Responder K}
    {draws rest : List (Reg K)} {result : Option (List u8 × Transcript)}
    (hself : self.Knows curve b) (hrange : curve.InRange self.a)
    (hA : self.aNeutral = curve.saveAffineXY (curve.baseMultiply self.a))
    (hsmall : 4 * self.a.toNat < 2 ^ (8 * K) + curve.curveQ.toNat)
    (hresponder : responder.Holds curve b)
    (h : responder.processChallenge curve skein self.aNeutral draws =
      some (result, responder', rest)) :
    ∃ answer key, result = some (answer, key) ∧
      self.processAnswer curve skein answer = some key := by
  obtain ⟨hrefuse, -, -⟩ | ⟨A, draws', r, S, hload, -, hcount, hnonce, rfl⟩ :=
    Responder.processChallenge_cases h
  · rw [hA] at hrefuse
    exact absurd (hrefuse _ (curve.load_save _)) (Curve.baseMultiply_ne_zero hrange)
  · have hA' : A = curve.baseMultiply self.a := by
      rw [hA, curve.load_save] at hload
      exact (Option.some.inj hload).symm
    obtain ⟨hS, hS1000⟩ := Responder.drawNonce_spec hnonce
    obtain ⟨hb, hbNeutral, hyRange, hY⟩ := hresponder.countChallenge hcount
    refine ⟨_, _, rfl, ?_⟩
    have hlenY : (responder'.yNeutral responder'.activeY).length = 2 * K := by
      rw [hY, curve.length_saveAffineXY]
    have hlenYr : (responder'.yNeutral responder'.activeY ++ r.save).length = 3 * K := by
      rw [List.length_append, hlenY, Reg.length_save]
      omega
    have hload : curve.loadVerifyAffineXY (responder'.yNeutral responder'.activeY) =
        some (curve.baseMultiply (responder'.y responder'.activeY)) := by
      rw [hY, curve.load_save]
    have hT := Curve.initiatorT_eq hrange hsmall S (responder'.y responder'.activeY) b
    simp only [processAnswer]
    rw [List.take_left' hlenYr, List.drop_left' hlenYr, List.append_assoc _ r.save,
      List.take_left' hlenY, hload, Option.bind_eq_bind, Option.bind_some,
      if_neg (Curve.baseMultiply_ne_zero hyRange), hself.bNeutral, ← hbNeutral,
      ← List.append_assoc _ _ r.save, ← hS, if_neg hS1000, hself.B_eq, hT, ← hb, ← hA',
      List.take_of_length_le (skein.length_generate _ _).le, if_pos rfl]

theorem verifyInitiatorIdentity_proof {b : Reg K} {self : Initiator K G} {answer proof : List u8}
    {draws rest : List (Reg K)} {key : Transcript} (hself : self.Knows curve b)
    (h : self.processAnswerWithIdentity curve skein answer draws = some (some (key, proof), rest)) :
    ∃ secret publicKey, self.identity = some (secret, publicKey) ∧
      Responder.verifyInitiatorIdentity curve skein answer proof = some publicKey := by
  simp only [processAnswerWithIdentity] at h
  split at h
  · simp at h
  · rename_i keyHash secret publicKey nonce draws' hanswer hidentity
    simp only [Option.bind_eq_bind, Option.bind_eq_some_iff, Option.pure_def, Option.some.injEq,
      Prod.mk.injEq, Prod.exists] at h
    obtain ⟨signature, draws'', hsign, ⟨rfl, rfl⟩, rfl⟩ := h
    refine ⟨secret, publicKey, hidentity, ?_⟩
    obtain ⟨hpublic, hne⟩ := hself.identity secret publicKey hidentity
    have hlenP : publicKey.length = 2 * K := by rw [hpublic, curve.length_saveAffineXY]
    have hlenPn : (publicKey ++ nonce.save).length = 3 * K := by
      rw [List.length_append, hlenP, Reg.length_save]
      omega
    have hverify := schnorrVerify_sign hsign
    simp only [Responder.verifyInitiatorIdentity]
    rw [List.drop_left' hlenPn, List.append_assoc, List.take_left' hlenP, List.drop_left' hlenP,
      List.take_left' (Reg.length_save nonce), hpublic, curve.load_save, Option.bind_eq_bind,
      Option.bind_some, if_neg hne, hverify, if_pos rfl]
  · cases h

end Initiator

end Exchange

/-! ## The curves of the library -/

/-- The orders in `KeyAgreement.cpp`, as bytes. -/
def q256 : List u8 :=
  [245, 131, 113, 179, 240, 8, 8, 95, 168, 93, 210, 180, 187, 107, 50, 108, 0, 0, 0, 0, 0, 0, 0, 0,
    0, 0, 0, 0, 0, 0, 0, 64]

@[inherit_doc q256]
def q384 : List u8 :=
  [167, 49, 135, 1, 253, 184, 43, 116, 11, 231, 6, 199, 63, 186, 43, 6, 212, 2, 195, 225, 178, 24,
    119, 115, 0, 0, 0, 0, 0, 0, 0, 0, 0, 0, 0, 0, 0, 0, 0, 0, 0, 0, 0, 0, 0, 0, 0, 64]

@[inherit_doc q256]
def q512 : List u8 :=
  [7, 136, 153, 241, 166, 33, 123, 142, 62, 77, 254, 231, 156, 219, 24, 171, 220, 146, 88, 148, 11,
    12, 153, 176, 182, 120, 137, 227, 1, 235, 197, 30, 0, 0, 0, 0, 0, 0, 0, 0, 0, 0, 0, 0, 0, 0, 0,
    0, 0, 0, 0, 0, 0, 0, 0, 0, 0, 0, 0, 0, 0, 0, 0, 64]

/-- No secret below one of these orders is too large. -/
theorem library_secrets {bytes : List u8} (h : bytes ∈ [q256, q384, q512]) {a : Nat}
    (ha : a < (Bytes.ofBytes bytes : Reg bytes.length).toNat) :
    4 * a < 2 ^ (8 * bytes.length) + (Bytes.ofBytes bytes : Reg bytes.length).toNat := by
  have hq : 3 * (Bytes.ofBytes bytes : Reg bytes.length).toNat < 2 ^ (8 * bytes.length) + 4 := by
    simp only [List.mem_cons, List.not_mem_nil, or_false] at h
    rcases h with rfl | rfl | rfl
    all_goals decide +kernel
  omega

/-! ## Residues as a curve -/

section Residues

variable {q : Nat}

/-- The residues of a prime in place of a curve of 256 bits. -/
def residueCurve (q : Nat) (hprime : q.Prime) (habove : 2 ^ 254 < q) (hbelow : q < 2 ^ 255) :
    Curve 32 (ZMod q) where
  generator := 1
  curveQ := BitVec.ofNat _ q
  saveAffineX P := Bytes.toBytes 32 (BitVec.ofNat 256 P.val)
  saveAffineXY P := Bytes.toBytes 64 (BitVec.ofNat 512 P.val)
  loadVerifyAffineXY bytes := some ((Bytes.ofBytes bytes : BitVec 512).toNat : ZMod q)
  prime := by
    rwa [BitVec.toNat_ofNat, Nat.mod_eq_of_lt (by omega)]
  order := by
    rw [BitVec.toNat_ofNat, Nat.mod_eq_of_lt (by omega), ZMod.addOrderOf_one]
  above := by
    rwa [BitVec.toNat_ofNat, Nat.mod_eq_of_lt (by omega)]
  below := by
    rwa [BitVec.toNat_ofNat, Nat.mod_eq_of_lt (by omega)]
  load_save P := by
    have : NeZero q := ⟨hprime.ne_zero⟩
    have hlt := ZMod.val_lt P
    rw [Bytes.ofBytes_toBytes (BitVec.isLt _), BitVec.toNat_ofNat, Nat.mod_eq_of_lt (by omega),
      ZMod.natCast_zmod_val]
  length_saveAffineX _ := Bytes.length_toBytes _ _
  length_saveAffineXY _ := Bytes.length_toBytes _ _

theorem residueCurve_injective {hprime : q.Prime} {habove : 2 ^ 254 < q} {hbelow : q < 2 ^ 255} :
    Function.Injective (residueCurve q hprime habove hbelow).saveAffineX := by
  intro P Q h
  have : NeZero q := ⟨hprime.ne_zero⟩
  have hP := ZMod.val_lt P
  have hQ := ZMod.val_lt Q
  have hword : BitVec.ofNat 256 P.val = BitVec.ofNat 256 Q.val := by
    have := congrArg (Bytes.ofBytes (w := 256)) h
    rwa [residueCurve, Bytes.ofBytes_toBytes (BitVec.isLt _), Bytes.ofBytes_toBytes (BitVec.isLt _)]
      at this
  apply ZMod.val_injective q
  have := congrArg BitVec.toNat hword
  rwa [BitVec.toNat_ofNat, BitVec.toNat_ofNat, Nat.mod_eq_of_lt (by omega),
    Nat.mod_eq_of_lt (by omega)] at this

theorem prime_465_shifted : Nat.Prime (465 * 2 ^ 246 + 1) := by
  refine lucas_primality _ (11 : ZMod _) ?_ ?_
  · norm_num only
    reduce_mod_char
  · intro p hp hdvd
    have hfactors : p = 2 ∨ p = 3 ∨ p = 5 ∨ p = 31 := by
      rw [Nat.add_sub_cancel, show 465 = 3 * 5 * 31 by rfl, hp.dvd_mul, hp.dvd_mul,
        hp.dvd_mul] at hdvd
      rcases hdvd with ((h | h) | h) | h
      · exact .inr (.inl ((Nat.prime_dvd_prime_iff_eq hp (by norm_num)).mp h))
      · exact .inr (.inr (.inl ((Nat.prime_dvd_prime_iff_eq hp (by norm_num)).mp h)))
      · exact .inr (.inr (.inr ((Nat.prime_dvd_prime_iff_eq hp (by norm_num)).mp h)))
      · exact .inl ((Nat.prime_dvd_prime_iff_eq hp (by norm_num)).mp (hp.dvd_of_dvd_pow h))
    rcases hfactors with rfl | rfl | rfl | rfl
    all_goals
      norm_num only
      reduce_mod_char
      decide +kernel

/-- A prime in the upper part of the range. -/
def largeQ : Nat := 465 * 2 ^ 246 + 1

theorem largeQ_prime : largeQ.Prime := prime_465_shifted

def largeCurve : Curve 32 (ZMod largeQ) :=
  residueCurve largeQ largeQ_prime (by decide +kernel) (by decide +kernel)

end Residues

/-! ## Key agreement -/

/-- **Key agreement and signatures.** Of a responder that has processed any challenges and an initiator
that has sent one: the secrets are the same for every nonce, so that the answer is accepted and gives
the same key; the signatures of the responder verify; and the identity of the initiator does. Only
the secrets depend on the size of `a`. -/
theorem key_agreement {G : Type} [AddCommGroup G] [DecidableEq G] (curve : Curve K G) (skein : SkeinOutput) {b : Reg K}
    {responder : Responder K} (hresponder : responder.Reachable curve skein (curve.keyPair b))
    {waiting initiator : Initiator K G}
    (hwaiting : waiting.Reachable curve (curve.keyPair b).publicKey)
    {challenge : List u8} {draws rest : List (Reg K)}
    (hchallenge : waiting.generateChallenge curve draws = some (challenge, initiator, rest)) :
    (4 * initiator.a.toNat < 2 ^ (8 * K) + curve.curveQ.toNat →
      (∀ S, curve.initiatorT S initiator.a initiator.B
          (curve.baseMultiply (responder.y responder.activeY)) =
        curve.responderT S (responder.y responder.activeY) responder.b
          (curve.baseMultiply initiator.a)) ∧
      ∀ draws result responder' rest, responder.processChallenge curve skein challenge draws =
          some (result, responder', rest) →
        ∃ answer key, result = some (answer, key) ∧
          initiator.processAnswer curve skein answer = some key) ∧
    (∀ message draws signature rest,
      responder.sign curve skein message draws = some (signature, rest) →
        initiator.verify curve skein message signature = true) ∧
    (∀ answer draws key proof rest, initiator.processAnswerWithIdentity curve skein answer draws =
        some (some (key, proof), rest) →
      ∃ secret publicKey, initiator.identity = some (secret, publicKey) ∧
        Responder.verifyInitiatorIdentity curve skein answer proof = some publicKey) := by
  have hholds := hresponder.holds
  have hknows := (hwaiting.generateChallenge hchallenge).knows
  obtain ⟨hrange, hA, hinitiator⟩ := Initiator.generateChallenge_spec hchallenge
  have hneutral : initiator.aNeutral = challenge := by rw [hinitiator]
  refine ⟨fun hsmall => ⟨fun S => ?_, fun draws result responder' rest h => ?_⟩, ?_, ?_⟩
  · rw [hknows.B_eq, hholds.b_eq]
    exact Curve.initiatorT_eq hrange hsmall S _ b
  · rw [← hneutral] at h hA
    exact Initiator.processAnswer_answer hknows hrange hA hsmall hholds h
  · intro message draws signature rest h
    rw [Responder.sign, hholds.b_eq] at h
    rw [Initiator.verify, hknows.B_eq]
    exact schnorrVerify_sign h
  · exact fun answer draws key proof rest h => Initiator.verifyInitiatorIdentity_proof hknows h

/-- A hash of ones. -/
def onesSkein : SkeinOutput where
  generate _ n := List.replicate n 255
  length_generate _ _ := List.length_replicate

/-- A small secret, an answer to its challenge, and the same key on both sides. -/
theorem key_agreement_small_secret : ∃ (responder responder' : Responder 32)
    (initiator : Initiator 32 (ZMod largeQ)) (challenge answer : List u8) (key : Transcript),
    responder.Reachable largeCurve onesSkein (largeCurve.keyPair 3) ∧ initiator.a = 5 ∧
      responder.processChallenge largeCurve onesSkein challenge [0] =
        some (some (answer, key), responder', []) ∧
      initiator.processAnswer largeCurve onesSkein answer = some key := by
  have hinitiator : (((Initiator.initializeWith largeCurve (largeCurve.keyPair 3).publicKey).bind
      fun i => i.generateChallenge largeCurve [5]).map fun r => r.2.1.a) = some 5 := by
    decide +kernel
  simp only [Option.map_eq_some_iff, Option.bind_eq_some_iff] at hinitiator
  obtain ⟨⟨challenge, initiator, rest⟩, ⟨waiting, hwaiting, hchallenge⟩, ha⟩ := hinitiator
  have hresponder : ((Responder.initializeWith largeCurve (largeCurve.keyPair 3) [2]).bind
      fun r => r.1.processChallenge largeCurve onesSkein
        (largeCurve.saveAffineXY (largeCurve.baseMultiply 5)) [0]).map
          (fun r => r.2.2) = some [] := by
    decide +kernel
  simp only [Option.map_eq_some_iff, Option.bind_eq_some_iff] at hresponder
  obtain ⟨⟨result, responder', rest'⟩, ⟨⟨responder, rest''⟩, hinit, hprocess⟩, rfl⟩ := hresponder
  have hreach := @Responder.Reachable.initializeWith _ _ _ _ _ onesSkein _ _ _ _ hinit
  have hsmall : 4 * initiator.a.toNat < 2 ^ 256 + largeCurve.curveQ.toNat := by
    rw [show initiator.a = 5 from ha]
    decide +kernel
  obtain ⟨-, hmessage, -⟩ := Initiator.generateChallenge_spec hchallenge
  rw [show initiator.a = 5 from ha] at hmessage
  rw [← hmessage] at hprocess
  obtain ⟨answer, key, rfl, haccept⟩ := (key_agreement largeCurve onesSkein hreach
    (.initializeWith hwaiting) hchallenge).1 hsmall |>.2 [0] result responder' [] hprocess
  exact ⟨responder, responder', initiator, challenge, answer, key, hreach, ha, hprocess, haccept⟩

/-- Every nonce gives two different secrets when `a` is `q - 1`. -/
theorem largeCurve_initiatorT_ne :
    largeCurve.generateKey [BitVec.ofNat _ (largeQ - 1)] = some (BitVec.ofNat _ (largeQ - 1), []) ∧
    largeCurve.generateKey [2] = some (2, []) ∧
    ∀ S, largeCurve.initiatorT S (BitVec.ofNat _ (largeQ - 1)) (largeCurve.baseMultiply 3)
        (largeCurve.baseMultiply 2) ≠
      largeCurve.responderT S 2 3 (largeCurve.baseMultiply (BitVec.ofNat _ (largeQ - 1))) := by
  refine ⟨by decide +kernel, by decide +kernel, fun S => ?_⟩
  refine Curve.initiatorT_ne residueCurve_injective ?_ ?_ (Curve.baseMultiply_ne_zero ?_) S 2
  · exact ⟨by decide +kernel, by decide +kernel⟩
  · decide +kernel
  · exact ⟨by decide +kernel, by decide +kernel⟩

end Libcat.Crypt
