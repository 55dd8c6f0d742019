import Mathlib.Data.List.GetD
import Discrete.Core.Wide
import Discrete.L1Encoding.TxExtra
import Discrete.L2Validation.InputChecks

/-!
# Currency rules (`Currency.cpp`, `CryptoNoteConfig.h`)

The emission curve, the size penalty, the difficulty retarget and the size
limits, in the machine words of the source: amounts, timestamps and difficulties
are `UInt64` and wrap, sizes and heights are `Nat`.

* `getPenalizedAmount_le`: the size penalty never pays more than it was given.
* `getBlockReward_some`: what a reward and an emission change are made of.
-/
namespace Discrete.L3
open L1 L2 Wide

def difficultyTarget : UInt64 := 90
def expectedNumberOfBlocksPerDay : UInt64 := 960
def maxBlockHeight : Nat := 500000000
def minedMoneyUnlockWindow : Nat := 10
def finalityDepth : Nat := 10
def blockFutureTimeLimit : Nat := 270
def timestampCheckWindow : Nat := 11
def emissionCurveTarget : UInt64 := 2100000000
def tailEmissionReward : UInt64 := 100
def emissionSpeedFactor : UInt64 := 18
def rewardBlocksWindow : Nat := 100
def blockGrantedFullRewardZone : Nat := 1000000
def minerTxBlobReservedSize : Nat := 600
def minimumFee : Nat := 1
def maxExtraSize : Nat := 4096
def freeRegRefWindow : Nat := 60
def freeRegPerBlock : Nat := 100
def freeRegPowTarget : UInt64 := 0x00007FFFFFFFFFFF
def freeRegPoolLimit : Nat := 2000
def maxTransactionSizeLimit : Nat := maxPqTxSize
def difficultyWindow : Nat := 60
def minimumDifficulty : UInt64 := 100000
def maxBlockSizeInitial : Nat := 1000000
def maxBlockSizeGrowthSpeedNumerator : Nat := 524288
def maxBlockSizeGrowthSpeedDenominator : Nat := 350400
def lockedTxAllowedDeltaBlocks : Nat := 1
def mempoolTxLiveTime : Nat := 86400
def mempoolTxFromAltBlockLiveTime : Nat := 604800
def numberOfPeriodsToForgetTxDeletedFromPool : Nat := 7
/-- `UPGRADE_HEIGHT_V2` to `UPGRADE_HEIGHT_V8`: all reserved at the same height. -/
def upgradeHeight : Nat := 4294967294

/-- What differs between networks, and the activation heights of the transfer
upgrades. None is scheduled: the values here are those of both networks. -/
structure Currency where
  testnet : Bool
  genesisBlockHash : Hash
  pqDeliveryV2Height : Nat := 4294967294
  pqTranscriptV2Height : Nat := 4294967295
  pqGroupedAuthHeight : Nat := 4294967295

/-- mirrors Currency.h:127-131 -/
def Currency.isPqTransferTypeAllowedAt (c : Currency) (txType : UInt8) (height : Nat) : Bool :=
  if txType = txPq then decide (height < c.pqDeliveryV2Height)
  else if txType = txPqV2 then decide (height ≥ c.pqDeliveryV2Height)
  else false

/-- mirrors PqValidation.cpp:347-356 -/
def Currency.pqSigningContextForHeight (c : Currency) (height : Nat) : PqSigningContext where
  useV2 := decide (height ≥ c.pqTranscriptV2Height)
  chainId := c.genesisBlockHash
  groupedAuth := decide (height ≥ c.pqGroupedAuthHeight)

/-- mirrors Blockchain.cpp:744-762 -/
def getBlockMajorVersionForHeight (height : Nat) : UInt8 := if height > upgradeHeight then 8 else 1

/-! ## Median -/

/-- mirrors Math.h:27-43 -/
def medianValue {α : Type} [Inhabited α] [LE α] [DecidableLE α] [Add α] [HDiv α α α] [OfNat α 2]
    (v : List α) : α :=
  let sorted := v.insertionSort (· ≤ ·)
  let n := v.length / 2
  if v.length = 0 then default
  else if v.length % 2 = 1 then sorted.getD n default
  else (sorted.getD (n - 1) default + sorted.getD n default) / 2

theorem getD_mem_or_default {α : Type} (l : List α) (i : Nat) (d : α) : l.getD i d = d ∨ l.getD i d ∈ l := by
  by_cases h : i < l.length
  · right
    rw [List.getD_eq_getElem _ _ h]
    exact List.getElem_mem h
  · left
    exact List.getD_eq_default _ _ (by omega)

theorem medianValue_lt {v : List Nat} {m : Nat} (hm : 0 < m) (h : ∀ x ∈ v, x < m) : medianValue v < m := by
  have hs : ∀ i, (v.insertionSort (· ≤ ·)).getD i default < m := by
    intro i
    rcases getD_mem_or_default (v.insertionSort (· ≤ ·)) i default with e | e
    · rw [e]; exact hm
    · exact h _ ((List.mem_insertionSort _).mp e)
  simp only [medianValue]
  split_ifs
  · exact hm
  · exact hs _
  · have := hs (v.length / 2 - 1)
    have := hs (v.length / 2)
    omega

/-! ## Reward -/

/-- mirrors Currency.cpp:186-203 -/
def calculateReward (alreadyGeneratedCoins : UInt64) : UInt64 :=
  let baseRewardInitial :=
    if alreadyGeneratedCoins < emissionCurveTarget then
      (emissionCurveTarget - alreadyGeneratedCoins) >>> emissionSpeedFactor
    else tailEmissionReward
  let blocksInOneYear := expectedNumberOfBlocksPerDay * 365
  let twoPercentOfEmission := alreadyGeneratedCoins / 100 * 2
  let baseRewardTail := twoPercentOfEmission / blocksInOneYear
  max baseRewardInitial baseRewardTail

/-- mirrors CryptoNoteBasicImpl.cpp:37-67 -/
def getPenalizedAmount (amount : UInt64) (medianSize currentBlockSize : Nat) : UInt64 :=
  if amount = 0 then 0
  else if currentBlockSize ≤ medianSize then amount
  else
    let multiplicand := UInt64.ofNat (2 * medianSize - currentBlockSize) * UInt64.ofNat currentBlockSize
    let product := mul128 amount multiplicand
    let once := (div128By32 product (UInt32.ofNat medianSize)).1
    (div128By32 once (UInt32.ofNat medianSize)).1.2

/-- The reward and the emission change; `none` for a block of more than twice the
median. `emissionChange` is an `int64_t` that is only ever added to a `uint64_t`,
so its bits are a `UInt64`. The coin version is 1: fees are penalized at every
block version.
mirrors Currency.cpp:205-230 -/
def getBlockReward (medianSize currentBlockSize : Nat) (alreadyGeneratedCoins fee : UInt64) :
    Option (UInt64 × UInt64) :=
  let baseReward := calculateReward alreadyGeneratedCoins
  let medianSize := max medianSize blockGrantedFullRewardZone
  if currentBlockSize > 2 * medianSize then none
  else
    let penalizedBaseReward := getPenalizedAmount baseReward medianSize currentBlockSize
    let penalizedFee := getPenalizedAmount fee medianSize currentBlockSize
    some (penalizedBaseReward + penalizedFee, penalizedBaseReward - (fee - penalizedFee))

/-- mirrors Currency.cpp:232-238 -/
def maxBlockCumulativeSize (height : Nat) : Nat :=
  maxBlockSizeInitial + height * maxBlockSizeGrowthSpeedNumerator / maxBlockSizeGrowthSpeedDenominator

theorem penalty_le {s m : Nat} (h : s ≤ 2 * m) : (2 * m - s) * s ≤ m * m := by
  obtain ⟨t, rfl⟩ | ⟨t, rfl⟩ : (∃ t, s = m + t) ∨ (∃ t, m = s + t) := by
    rcases Nat.le_total m s with h | h
    · exact .inl ⟨s - m, by omega⟩
    · exact .inr ⟨m - s, by omega⟩
  · obtain ⟨u, rfl⟩ : ∃ u, m = t + u := ⟨m - t, by omega⟩
    rw [show 2 * (t + u) - (t + u + t) = u by omega]
    nlinarith
  · rw [show 2 * (s + t) - s = s + 2 * t by omega]
    nlinarith

/-- The two word-level divisions divide by the square of the median. -/
theorem penalty_wide (amount : UInt64) {m s : Nat} (hm : m < 2 ^ 32) (hlt : m < s) (hs : s ≤ 2 * m) :
    wide (div128By32 (div128By32 (mul128 amount (UInt64.ofNat (2 * m - s) * UInt64.ofNat s))
      (UInt32.ofNat m)).1 (UInt32.ofNat m)).1 = amount.toNat * ((2 * m - s) * s) / m / m := by
  have hpen := penalty_le hs
  have hmm : m * m < 2 ^ 64 := by
    calc m * m ≤ (2 ^ 32 - 1) * (2 ^ 32 - 1) := Nat.mul_le_mul (by omega) (by omega)
      _ < 2 ^ 64 := by decide
  have hmul : (UInt64.ofNat (2 * m - s) * UInt64.ofNat s).toNat = (2 * m - s) * s := by
    have e1 : (2 * m - s) % 2 ^ 64 = 2 * m - s := Nat.mod_eq_of_lt (by omega)
    have e2 : s % 2 ^ 64 = s := Nat.mod_eq_of_lt (by omega)
    rw [UInt64.toNat_mul, UInt64.toNat_ofNat', UInt64.toNat_ofNat', e1, e2]
    exact Nat.mod_eq_of_lt (by omega)
  have hmed : (UInt32.ofNat m).toNat = m := by
    rw [UInt32.toNat_ofNat']
    exact Nat.mod_eq_of_lt (by omega)
  have hd : 0 < (UInt32.ofNat m).toNat := by omega
  have h1 := div128By32_wide (mul128 amount (UInt64.ofNat (2 * m - s) * UInt64.ofNat s)) hd
  have h2 := div128By32_wide (div128By32 (mul128 amount
    (UInt64.ofNat (2 * m - s) * UInt64.ofNat s)) (UInt32.ofNat m)).1 hd
  rw [h2, h1, mul128_wide, hmul, hmed]

theorem penalty_quotient_le (amount : Nat) {m s : Nat} (hs : s ≤ 2 * m) :
    amount * ((2 * m - s) * s) / m / m ≤ amount := by
  rw [Nat.div_div_eq_div_mul]
  apply Nat.div_le_of_le_mul
  calc amount * ((2 * m - s) * s) ≤ amount * (m * m) := Nat.mul_le_mul_left _ (penalty_le hs)
    _ = m * m * amount := Nat.mul_comm _ _

/-- The quotient fits the low word. -/
theorem getPenalizedAmount_toNat {amount : UInt64} {m s : Nat} (hm : m < 2 ^ 32) (hlt : m < s) (hs : s ≤ 2 * m) :
    (getPenalizedAmount amount m s).toNat = amount.toNat * ((2 * m - s) * s) / m / m := by
  have hfit := lt_of_le_of_lt (penalty_quotient_le amount.toNat hs) amount.toNat_lt
  have hquot := penalty_wide amount hm hlt hs
  unfold getPenalizedAmount
  split
  · rename_i h0
    rw [h0]; simp
  · rw [if_neg (by omega)]
    rw [← hquot] at hfit ⊢
    unfold wide at hfit ⊢
    dsimp only
    generalize (div128By32 (div128By32 (mul128 amount
      (UInt64.ofNat (2 * m - s) * UInt64.ofNat s)) (UInt32.ofNat m)).1 (UInt32.ofNat m)).1 = q at *
    omega

theorem getPenalizedAmount_le (amount : UInt64) {m s : Nat} (hm : m < 2 ^ 32) (hs : s ≤ 2 * m) :
    (getPenalizedAmount amount m s).toNat ≤ amount.toNat := by
  rcases Nat.lt_or_ge m s with hlt | hge
  · rw [getPenalizedAmount_toNat hm hlt hs]
    exact penalty_quotient_le _ hs
  · unfold getPenalizedAmount
    split_ifs
    · simp
    · exact le_rfl

/-- A reward is a base part, at most the curve's, and a fee part, at most the fees;
the emission change is what the reward adds to circulation. -/
theorem getBlockReward_some {median size : Nat} {generated fee reward emission : UInt64}
    (hm : median < 2 ^ 32) (h : getBlockReward median size generated fee = some (reward, emission)) :
    ∃ base kept : UInt64, base.toNat ≤ (calculateReward generated).toNat ∧ kept.toNat ≤ fee.toNat ∧
      reward = base + kept ∧ emission = base - (fee - kept) := by
  unfold getBlockReward at h
  dsimp only at h
  split at h
  · cases h
  · rename_i hsize
    simp only [Option.some.injEq, Prod.mk.injEq] at h
    have hmax : max median blockGrantedFullRewardZone < 2 ^ 32 := by
      have : blockGrantedFullRewardZone < 2 ^ 32 := by decide
      omega
    exact ⟨_, _, getPenalizedAmount_le _ hmax (by omega), getPenalizedAmount_le _ hmax (by omega), h.1.symm, h.2.symm⟩

/-! ## Difficulty -/

/-- The weighted solve times of the window: `(L, previous_timestamp)` after turn `i`. -/
def lwmaTurn (timestamps : List UInt64) (s : UInt64 × UInt64) (i : Nat) : UInt64 × UInt64 :=
  let thisTimestamp := if timestamps.getD i 0 > s.2 then timestamps.getD i 0 else s.2 + 1
  (s.1 + UInt64.ofNat i * min (6 * difficultyTarget) (thisTimestamp - s.2), thisTimestamp)

/-- Digits of the next difficulty that count; the first scale that fits is used. -/
def roundDifficulty (nextD : UInt64) : UInt64 :=
  match [1000000000, 100000000, 10000000, 1000000, 100000, 10000, 1000, 100, 10].find?
      fun i : UInt64 => nextD > i * 100 with
  | some i => (nextD + i / 2) / i * i
  | none => nextD

/-- LWMA-1. `height` and the block version are ignored by the source.
mirrors Currency.cpp:333-443 -/
def nextDifficulty (testnet : Bool) (timestamps cumulativeDifficulties : List UInt64) : UInt64 :=
  let floorDiff : UInt64 := if testnet then 1 else max 1 minimumDifficulty
  if timestamps.length ≤ 1 ∨ cumulativeDifficulties.length ≤ 1 then floorDiff
  else
    let T := difficultyTarget
    let available := min timestamps.length cumulativeDifficulties.length
    let n := min difficultyWindow (available - 1)
    let N := UInt64.ofNat n
    if n = 0 then floorDiff
    else
      let L := ((List.range' 1 n).foldl (lwmaTurn timestamps) (0, timestamps.getD 0 0 - T)).1
      let L := if L < N * N * T / 20 then N * N * T / 20 else L
      if L = 0 then floorDiff
      else
        let avgD := (cumulativeDifficulties.getD n 0 - cumulativeDifficulties.getD 0 0) / N
        if avgD = 0 then floorDiff
        else
          let nextD :=
            if avgD > 2000000 * N * N * T then avgD / (200 * L) * (N * (N + 1) * T * 99)
            else avgD * N * (N + 1) * T * 99 / (200 * L)
          max floorDiff (roundDifficulty nextD)

/-- The `i`-th little-endian 64-bit word of a hash. -/
def hashWord (h : Hash) (i : Nat) : UInt64 := UInt64.ofNat (Codec.leValue ((h.val.drop (8 * i)).take 8))

/-- `cadd` -/
def carryAdd (a b : UInt64) : Bool := decide (a + b < a)

/-- `cadc` -/
def carryAdc (a b : UInt64) (c : Bool) : Bool := decide (a + b < a) || (c && decide (a + b = 0xFFFFFFFFFFFFFFFF))

/-- mirrors Difficulty.cpp:58-74 -/
def checkHash (hash : Hash) (difficulty : UInt64) : Bool :=
  let w3 := mul128 (hashWord hash 3) difficulty
  if w3.1 ≠ 0 then false
  else
    let w0 := mul128 (hashWord hash 0) difficulty
    let w1 := mul128 (hashWord hash 1) difficulty
    let carry := carryAdd w0.1 w1.2
    let w2 := mul128 (hashWord hash 2) difficulty
    let carry := carryAdc w1.1 w2.2 carry
    let carry := carryAdc w2.1 w3.2 carry
    !carry

end Discrete.L3
