import Libcat.Math.BitMath

/-!
# Flow control

`FlowControl` of the transport: the bandwidth limit goes up by the goodput of a period and is halved
on losses, the round-trip time is a moving average, and the rest of the bandwidth is handed out by the
clock. Signed fields are integers; an addition that leaves the range of `s32` and a division by zero
have no result.
-/

namespace Libcat.Sphynx

namespace FlowControl

def rttFuzz : u32 := 10

end FlowControl

structure FlowControl where
  bandwidthLowLimit : Int
  bandwidthHighLimit : Int
  bps : Int
  availableBw : Int
  lastBwUpdate : u32
  rtt : u32
  lastStatsUpdate : u32
  statsRttAcc : u32
  statsRttCount : u32
  statsLossCount : u32
  statsGoodput : u32

namespace FlowControl

/-- The constructor. -/
def init : FlowControl where
  bandwidthLowLimit := 3000
  bandwidthHighLimit := 100000000
  bps := 3000
  availableBw := 0
  lastBwUpdate := 0
  rtt := 3000
  lastStatsUpdate := 0
  statsRttAcc := 0
  statsRttCount := 0
  statsLossCount := 0
  statsGoodput := 0

/-- What a call returns or computes on the way. -/
inductive Output where
  /-- `GetRemainingBytes` at this limit. -/
  | remaining (bps available : Int)
  /-- The divisor of `goodrate` and the statistics of a period. -/
  | statistics (elapsed : Int) (rttAvg lossCount goodput goodrate : u32)
deriving DecidableEq

inductive Call where
  | getRemainingBytes (now : u32)
  | onPacketSend (bytesWithOverhead : u32)
  | onTick (now timeoutLossCount : u32)
  | onACK (recvTime tsFirstsend tsLastsend : u32)
  | onACKDone (recvTime nackLossCount dataBytes : u32)

section Model

/-- The result of signed arithmetic. -/
def signed (n : Int) : Option Int := if -2 ^ 31 ≤ n ∧ n < 2 ^ 31 then some n else none

def divide {w : Nat} (a b : BitVec w) : Option (BitVec w) := if b = 0 then none else some (a / b)

/-- `GetRemainingBytes`. -/
def getRemainingBytes (fc : FlowControl) (now : u32) : FlowControl × Int :=
  let elapsed := now - fc.lastBwUpdate
  let bytes : u32 := ((elapsed.setWidth 64 * BitVec.ofInt 64 fc.bps) / 1000#64).setWidth 32
  let bytesPerTickMax := fc.bps.tdiv 100
  let bytes := if BitVec.ofInt 32 bytesPerTickMax < bytes then BitVec.ofInt 32 bytesPerTickMax else bytes
  -- the sum is unsigned
  let available := (BitVec.ofInt 32 fc.availableBw + bytes).toInt
  let available := if bytesPerTickMax < available then bytesPerTickMax else available
  ({ fc with lastBwUpdate := now, availableBw := available }, available)

/-- `OnPacketSend`. -/
def onPacketSend (fc : FlowControl) (bytesWithOverhead : u32) : FlowControl :=
  { fc with availableBw := (BitVec.ofInt 32 fc.availableBw - bytesWithOverhead).toInt }

/-- `(_rtt + RTT_FUZZ) * 4` as an `s32`. -/
def period (fc : FlowControl) : Int := ((fc.rtt + rttFuzz) * 4).toInt

def getNACKTimeout (fc : FlowControl) : u32 := (fc.rtt + rttFuzz) * 3 / 2

def getHeadTimeout (fc : FlowControl) : u32 := (fc.rtt + rttFuzz) * 2

-- the comparison `goodrate >= _bps * 0.8` of floating-point numbers
variable (goodEnough : u32 → Int → Bool)

/-- The new `_bps` at the end of a period. -/
def nextBps (fc : FlowControl) (lossCount goodrate : u32) : Option Int :=
  if 2 ≤ lossCount then
    let bps := fc.bps.tdiv 2
    some (if bps < fc.bandwidthLowLimit then fc.bandwidthLowLimit else bps)
  else if goodEnough goodrate fc.bps then do
    let increment := (goodrate / 20).toInt
    let increment := if increment < 2000 then 2000 else increment
    let bps ← signed (fc.bps + increment)
    return if fc.bandwidthHighLimit < bps then fc.bandwidthHighLimit else bps
  else some fc.bps

def rttAvg (fc : FlowControl) : Option u32 :=
  if fc.statsRttCount ≠ 0 then divide fc.statsRttAcc fc.statsRttCount else some 0

/-- `OnTick`. -/
def onTick (fc : FlowControl) (now timeoutLossCount : u32) : Option (FlowControl × List Output) :=
  let fc := { fc with statsLossCount := fc.statsLossCount + timeoutLossCount }
  let elapsed := (now - fc.lastStatsUpdate).toInt
  if period fc ≤ elapsed then do
    let rttAvg ← rttAvg fc
    let rate ← divide (fc.statsGoodput.setWidth 64 * 1000) (BitVec.ofInt 64 elapsed)
    let goodrate := rate.setWidth 32
    let bps ← nextBps goodEnough fc fc.statsLossCount goodrate
    return ({ fc with
        bps, lastStatsUpdate := now, statsRttAcc := 0, statsRttCount := 0, statsLossCount := 0,
        statsGoodput := 0 },
      [.statistics elapsed rttAvg fc.statsLossCount fc.statsGoodput goodrate])
  else some (fc, [])

/-- `OnACK`. -/
def onACK (fc : FlowControl) (recvTime tsFirstsend tsLastsend : u32) : FlowControl :=
  if tsFirstsend = tsLastsend then
    let rtt := recvTime - tsFirstsend
    { fc with
      statsRttAcc := fc.statsRttAcc + rtt
      statsRttCount := fc.statsRttCount + 1
      rtt := (fc.rtt * 9 + rtt) / 10 }
  else fc

/-- `OnACKDone`. -/
def onACKDone (fc : FlowControl) (_recvTime nackLossCount dataBytes : u32) : FlowControl :=
  { fc with
    statsGoodput := fc.statsGoodput + dataBytes
    statsLossCount := fc.statsLossCount + nackLossCount }

def step (fc : FlowControl) : Call → Option (FlowControl × List Output)
  | .getRemainingBytes now =>
    let r := getRemainingBytes fc now
    some (r.1, [.remaining fc.bps r.2])
  | .onPacketSend bytesWithOverhead => some (onPacketSend fc bytesWithOverhead, [])
  | .onTick now timeoutLossCount => onTick goodEnough fc now timeoutLossCount
  | .onACK recvTime tsFirstsend tsLastsend => some (onACK fc recvTime tsFirstsend tsLastsend, [])
  | .onACKDone recvTime nackLossCount dataBytes =>
    some (onACKDone fc recvTime nackLossCount dataBytes, [])

/-- Calls one after the other, as the lock has them. -/
def run (fc : FlowControl) : List Call → Option (FlowControl × List Output)
  | [] => some (fc, [])
  | call :: calls => do
    let (fc, out) ← step goodEnough fc call
    let (fc, outs) ← run fc calls
    return (fc, out ++ outs)

end Model

/-- The limits of the constructor, a rate within them and a round-trip time that leaves room for the
timeouts. -/
structure Inv (fc : FlowControl) : Prop where
  low : fc.bandwidthLowLimit = 3000
  high : fc.bandwidthHighLimit = 100000000
  low_le : 3000 ≤ fc.bps
  le_high : fc.bps ≤ 100000000
  rtt_le : fc.rtt.toNat ≤ 429496729

/-- What holds of the outputs. -/
def Output.Sound : Output → Prop
  | .remaining bps available => available ≤ bps / 100
  | .statistics elapsed .. => 0 < elapsed

/-- Timeouts without a wrap and a rate within the limits. -/
structure InRange (fc : FlowControl) : Prop where
  period_pos : 0 < period fc
  period_eq : period fc = (fc.rtt.toNat + 10) * 4
  nack_eq : (getNACKTimeout fc).toNat = (fc.rtt.toNat + 10) * 3 / 2
  head_eq : (getHeadTimeout fc).toNat = (fc.rtt.toNat + 10) * 2
  low_le : fc.bandwidthLowLimit ≤ fc.bps
  le_high : fc.bps ≤ fc.bandwidthHighLimit

theorem Inv.init : Inv init where
  low := rfl
  high := rfl
  low_le := by decide
  le_high := by decide
  rtt_le := by decide

theorem fuzzed_toNat {fc : FlowControl} (h : Inv fc) :
    (fc.rtt + rttFuzz).toNat = fc.rtt.toNat + 10 := by
  have := h.rtt_le
  rw [BitVec.toNat_add, show rttFuzz.toNat = 10 from rfl]
  omega

theorem Inv.period_eq {fc : FlowControl} (h : Inv fc) :
    period fc = (fc.rtt.toNat + 10) * 4 := by
  have hle := h.rtt_le
  have hmul : ((fc.rtt + rttFuzz) * 4).toNat = (fc.rtt.toNat + 10) * 4 := by
    rw [BitVec.toNat_mul, fuzzed_toNat h, show (4 : u32).toNat = 4 from rfl]
    omega
  rw [period, BitVec.toInt_eq_toNat_of_lt (by omega), hmul]
  omega

theorem Inv.inRange {fc : FlowControl} (h : Inv fc) : InRange fc where
  period_pos := by
    rw [h.period_eq]
    omega
  period_eq := h.period_eq
  nack_eq := by
    have hle := h.rtt_le
    rw [getNACKTimeout, BitVec.toNat_udiv, BitVec.toNat_mul, fuzzed_toNat h,
      show (3 : u32).toNat = 3 from rfl, show (2 : u32).toNat = 2 from rfl]
    omega
  head_eq := by
    have hle := h.rtt_le
    rw [getHeadTimeout, BitVec.toNat_mul, fuzzed_toNat h, show (2 : u32).toNat = 2 from rfl]
    omega
  low_le := by
    rw [h.low]
    exact h.low_le
  le_high := by
    rw [h.high]
    exact h.le_high

/-! ## Calls -/

theorem Inv.getRemainingBytes {fc : FlowControl} (h : Inv fc) (now : u32) :
    Inv (getRemainingBytes fc now).1 := ⟨h.low, h.high, h.low_le, h.le_high, h.rtt_le⟩

theorem getRemainingBytes_le {fc : FlowControl} (h : Inv fc) (now : u32) :
    (getRemainingBytes fc now).2 ≤ fc.bps / 100 := by
  have hdiv : fc.bps.tdiv 100 = fc.bps / 100 :=
    Int.tdiv_eq_ediv_of_nonneg (by have := h.low_le; omega)
  simp only [FlowControl.getRemainingBytes, hdiv]
  generalize (BitVec.toInt _ : Int) = available
  split <;> omega

theorem Inv.onACK {fc : FlowControl} (h : Inv fc) (recvTime tsFirstsend tsLastsend : u32) :
    Inv (onACK fc recvTime tsFirstsend tsLastsend) := by
  unfold FlowControl.onACK
  split
  · refine ⟨h.low, h.high, h.low_le, h.le_high, ?_⟩
    -- a quotient by ten, whatever the sum wraps to
    show ((fc.rtt * 9 + (recvTime - tsFirstsend)) / 10#32).toNat ≤ 429496729
    have hlt := (fc.rtt * 9 + (recvTime - tsFirstsend)).isLt
    rw [BitVec.toNat_udiv, show (10#32).toNat = 10 from rfl]
    omega
  · exact h

theorem signed_of_range {n : Int} (hlow : -2 ^ 31 ≤ n) (hhigh : n < 2 ^ 31) : signed n = some n :=
  if_pos ⟨hlow, hhigh⟩

/-- A twentieth of any rate is a positive `s32`. -/
theorem increment_range (goodrate : u32) :
    0 ≤ (goodrate / 20).toInt ∧ (goodrate / 20).toInt ≤ 214748364 := by
  have hlt := goodrate.isLt
  have hdiv : (goodrate / 20).toNat = goodrate.toNat / 20 := BitVec.toNat_udiv
  rw [BitVec.toInt_eq_toNat_of_lt (by omega), hdiv]
  omega

theorem nextBps_range (goodEnough : u32 → Int → Bool) {fc : FlowControl} (h : Inv fc)
    (lossCount goodrate : u32) :
    ∃ bps, nextBps goodEnough fc lossCount goodrate = some bps ∧ 3000 ≤ bps ∧ bps ≤ 100000000 := by
  have hlow := h.low_le
  have hhigh := h.le_high
  unfold nextBps
  rw [h.low, h.high]
  split
  · have hhalf : fc.bps.tdiv 2 = fc.bps / 2 := Int.tdiv_eq_ediv_of_nonneg (by omega)
    refine ⟨_, rfl, ?_⟩
    simp only [hhalf]
    split <;> omega
  · split
    · obtain ⟨hpos, hmax⟩ := increment_range goodrate
      generalize (goodrate / 20).toInt = increment at hpos hmax
      have hinc : ∃ inc, inc = (if increment < 2000 then 2000 else increment) ∧ 0 ≤ inc ∧
          inc ≤ 214748364 := ⟨_, rfl, by split <;> omega⟩
      obtain ⟨inc, heq, hinc0, hinc1⟩ := hinc
      simp only [← heq]
      rw [signed_of_range (by omega) (by omega)]
      refine ⟨_, rfl, ?_⟩
      split <;> omega
    · exact ⟨_, rfl, hlow, hhigh⟩

theorem divide_of_ne {w : Nat} {a b : BitVec w} (h : b ≠ 0) : divide a b = some (a / b) := if_neg h

/-- A positive `s32` does not become zero as an unsigned 64-bit number. -/
theorem ofInt_ne_zero {n : Int} (hpos : 0 < n) (hlt : n < 2 ^ 31) : BitVec.ofInt 64 n ≠ 0 := by
  intro h
  have htoNat := congrArg BitVec.toNat h
  rw [BitVec.toNat_ofInt, show (0 : u64).toNat = 0 from rfl] at htoNat
  omega

theorem rttAvg_isSome (fc : FlowControl) : ∃ avg, rttAvg fc = some avg := by
  unfold rttAvg
  split
  · rename_i hcount
    exact ⟨_, divide_of_ne hcount⟩
  · exact ⟨0, rfl⟩

/-- **A tick** has a result, and in a new period the divisor is positive. -/
theorem onTick_spec (goodEnough : u32 → Int → Bool) {fc : FlowControl} (h : Inv fc)
    (now timeoutLossCount : u32) :
    ∃ r, onTick goodEnough fc now timeoutLossCount = some r ∧ Inv r.1 ∧ ∀ o ∈ r.2, o.Sound := by
  unfold onTick
  generalize hcounted : ({ fc with statsLossCount := fc.statsLossCount + timeoutLossCount } :
    FlowControl) = counted
  have hinv : Inv counted := hcounted ▸ ⟨h.low, h.high, h.low_le, h.le_high, h.rtt_le⟩
  have hpos := hinv.inRange.period_pos
  have hlt := @BitVec.toInt_lt 32 (now - counted.lastStatsUpdate)
  dsimp only
  split
  · rename_i hperiod
    have helapsed : 0 < (now - counted.lastStatsUpdate).toInt := by omega
    obtain ⟨avg, havg⟩ := rttAvg_isSome counted
    have hne := ofInt_ne_zero helapsed (by simpa using hlt)
    obtain ⟨bps, hbps, hlow, hhigh⟩ := nextBps_range goodEnough hinv counted.statsLossCount
      ((counted.statsGoodput.setWidth 64 * 1000 /
        BitVec.ofInt 64 (now - counted.lastStatsUpdate).toInt).setWidth 32)
    refine ⟨_, by
      rw [havg, divide_of_ne hne]
      simp only [Option.bind_eq_bind, Option.bind_some, hbps]
      rfl, ?_, ?_⟩
    · exact ⟨hinv.low, hinv.high, hlow, hhigh, hinv.rtt_le⟩
    · simpa [Output.Sound] using helapsed
  · exact ⟨_, rfl, hinv, fun o ho => absurd ho List.not_mem_nil⟩

/-! ## Runs -/

theorem step_spec (goodEnough : u32 → Int → Bool) {fc : FlowControl} (h : Inv fc) (call : Call) :
    ∃ r, step goodEnough fc call = some r ∧ Inv r.1 ∧ ∀ o ∈ r.2, o.Sound := by
  cases call with
  | getRemainingBytes now =>
    refine ⟨_, rfl, h.getRemainingBytes now, fun o ho => ?_⟩
    rw [List.mem_singleton.mp ho]
    exact getRemainingBytes_le h now
  | onPacketSend bytes =>
    exact ⟨_, rfl, ⟨h.low, h.high, h.low_le, h.le_high, h.rtt_le⟩, by simp⟩
  | onTick now timeoutLossCount => exact onTick_spec goodEnough h now timeoutLossCount
  | onACK recvTime tsFirstsend tsLastsend =>
    exact ⟨_, rfl, h.onACK recvTime tsFirstsend tsLastsend, by simp⟩
  | onACKDone recvTime nackLossCount dataBytes =>
    exact ⟨_, rfl, ⟨h.low, h.high, h.low_le, h.le_high, h.rtt_le⟩, by simp⟩

theorem run_spec (goodEnough : u32 → Int → Bool) (calls : List Call) {fc : FlowControl}
    (h : Inv fc) :
    ∃ r, run goodEnough fc calls = some r ∧ Inv r.1 ∧ ∀ o ∈ r.2, o.Sound := by
  induction calls generalizing fc with
  | nil => exact ⟨_, rfl, h, by simp⟩
  | cons call calls ih =>
    obtain ⟨r, hr, hinv, hsound⟩ := step_spec goodEnough h call
    obtain ⟨rs, hrs, hinvs, hsounds⟩ := ih hinv
    refine ⟨(rs.1, r.2 ++ rs.2), ?_, hinvs, fun o ho => ?_⟩
    · rw [run, hr]
      simp only [Option.bind_eq_bind, Option.bind_some, hrs]
      rfl
    · obtain ho | ho := List.mem_append.mp ho
      · exact hsound o ho
      · exact hsounds o ho

/-- **Flow control arithmetic**: every order of calls runs without a division by zero or a signed
overflow, and the rate and the timeouts stay in range. -/
theorem run_inRange (goodEnough : u32 → Int → Bool) (calls : List Call) :
    ∃ fc out, run goodEnough FlowControl.init calls = some (fc, out) ∧ InRange fc ∧
      ∀ o ∈ out, o.Sound := by
  obtain ⟨r, hr, hinv, hsound⟩ := run_spec goodEnough calls Inv.init
  exact ⟨r.1, r.2, hr, hinv.inRange, hsound⟩

end FlowControl

end Libcat.Sphynx
