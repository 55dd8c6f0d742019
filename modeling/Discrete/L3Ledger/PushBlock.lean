import Discrete.L3Ledger.InputCheck

/-!
# Appending a block (`Blockchain::pushBlock`)

The checks of a block against the tip in the order of the source, the loop over
its transactions with the running size, fees and registrations, and the writes.
A failed push aborts the write transaction, so it has no result at all: the
database stays the one it was given.

The clock is a `Nat` of seconds. `BLOCK_MAJOR_VERSION` 2 and 3, the only ones with
a parent block, are the version of no height (`getBlockMajorVersionForHeight`), so
the parent block check is left out.

* `pushBlockTx_ok`, `pushBlock_ok`: what one turn and a whole push establish.
-/
namespace Discrete.L3
open L1 L2

/-- A stored alternative block. -/
structure BlockEntry where
  bl : Block
  height : Nat
  cumulativeDifficulty : UInt64
  blockCumulativeSize : Nat
  deriving DecidableEq

/-- A default `DbBlockMeta`, which is what a failed lookup leaves. -/
def DbBlockMeta.zero : DbBlockMeta where
  hash := nullHash
  prevHash := nullHash
  timestamp := 0
  cumulativeDifficulty := 0
  alreadyGeneratedCoins := 0
  blockCumulativeSize := 0
  height := 0
  txCount := 0
  majorVersion := 0
  minorVersion := 0

/-- mirrors LMDBBlockchainDB.cpp:471-480 -/
def Db.getBlockMeta (db : Db) (height : Nat) : DbBlockMeta := (db.metas[height]?).getD .zero

/-! ## Difficulty -/

/-- Timestamps and cumulative difficulties backwards along the hash links, at most
`n`; `none` when a link leads nowhere. -/
def difficultyWalk (db : Db) (alt : Hash → Option BlockEntry) : Nat → Hash → Option (List (UInt64 × UInt64))
  | 0, _ => some []
  | n + 1, h =>
    if h = nullHash then some []
    else
      match alt h with
      | some b =>
        (difficultyWalk db alt n b.bl.previousBlockHash).map ((b.bl.timestamp, b.cumulativeDifficulty) :: ·)
      | none =>
        match db.hashHeight h with
        | none => none
        | some bh =>
          let entry := db.getBlockMeta bh
          (difficultyWalk db alt n entry.prevHash).map ((entry.timestamp, entry.cumulativeDifficulty) :: ·)

/-- mirrors Blockchain.cpp:766-840 -/
def getDifficultyForNextBlock (E : Env) (db : Db) (alt : Hash → Option BlockEntry) (prevHash : Hash) :
    UInt64 :=
  if prevHash = nullHash then 1
  else
    let chainHeight := db.getChainHeight
    let difficultyBlocksCount := min (max (if chainHeight > 0 then chainHeight - 1 else 1) 1) (difficultyWindow + 1)
    match db.hashHeight prevHash with
    | some prevHeight =>
      let metas := db.getBlockMetaRange (prevHeight + 1 - difficultyBlocksCount) prevHeight
      nextDifficulty E.currency.testnet (metas.map DbBlockMeta.timestamp)
        (metas.map DbBlockMeta.cumulativeDifficulty)
    | none =>
      match difficultyWalk db alt difficultyBlocksCount prevHash with
      | none => 0
      | some back =>
        nextDifficulty E.currency.testnet (back.reverse.map Prod.fst) (back.reverse.map Prod.snd)

/-! ## Header checks -/

/-- mirrors CryptoNoteFormatUtils.cpp:107-116 -/
def getBlockHeight (b : Block) : Nat :=
  match b.baseTransaction.inputs with
  | [.base i] => i.blockIndex.toNat
  | _ => 0

/-- mirrors Blockchain.cpp:995-1006 -/
def checkBlockVersion (b : Block) : Bool :=
  decide (b.majorVersion = getBlockMajorVersionForHeight (getBlockHeight b))

/-- mirrors Blockchain.cpp:976-987 -/
def checkBlockTimestamp (timestamps : List UInt64) (b : Block) : Bool :=
  if timestamps.length < timestampCheckWindow then true
  else decide (¬ b.timestamp < medianValue timestamps)

/-- mirrors Blockchain.cpp:950-974 -/
def checkBlockTimestampMain (db : Db) (now : Nat) (b : Block) : Bool :=
  if b.timestamp.toNat > now + blockFutureTimeLimit then false
  else
    let metas := db.getBlockMetaRange (db.getChainHeight - timestampCheckWindow) (db.getChainHeight - 1)
    checkBlockTimestamp (metas.map DbBlockMeta.timestamp) b

/-- mirrors Blockchain.cpp:845-868 -/
def Db.getLastNBlocksSizes (db : Db) (count : Nat) : List Nat :=
  (db.metas.drop (db.getChainHeight - count)).map fun e => e.blockCumulativeSize.toNat

/-! ## Miner transaction -/

/-- mirrors Blockchain.cpp:1067-1138 -/
def prevalidateMinerTransaction (b : Block) (height : Nat) : Bool :=
  let tx := b.baseTransaction
  decide (tx.version = transactionVersion1) && decide (tx.txType = txCoinbase) &&
    decide (tx.inputs.length = 1) &&
    (if height = 0 then decide (tx.outputs ≠ []) else decide (tx.outputs.length = 1)) &&
    tx.outputs.all (fun o => match o.target with | .coinbase _ => true | _ => false) &&
    decide (tx.pqSignatures = []) &&
    (match tx.inputs with | .base i :: _ => decide (i.blockIndex.toNat = height) | _ => false) &&
    (decide (height = 0) || decide (tx.unlockHeight.toNat = height + minedMoneyUnlockWindow)) &&
    checkOutsOverflow tx.toTransactionPrefix &&
    decide (tx.extra.length ≤ maxExtraSize)

/-- The reward and the emission change of an accepted coinbase.
mirrors Blockchain.cpp:1140-1184 -/
def validateMinerTransaction (db : Db) (b : Block) (height cumulativeBlockSize : Nat)
    (alreadyGeneratedCoins fee : UInt64) : Option (UInt64 × UInt64) :=
  let minerReward := getOutputAmount b.baseTransaction
  if height = 0 then some (minerReward, minerReward)
  else
    let blocksSizeMedian := medianValue (db.getLastNBlocksSizes rewardBlocksWindow)
    match getBlockReward blocksSizeMedian cumulativeBlockSize alreadyGeneratedCoins fee with
    | none => none
    | some (reward, emissionChange) => if minerReward = reward then some (reward, emissionChange) else none

/-- "discrete-coinbase-rho-v1" -/
def kDomainCoinbaseRho : Bytes := domainTag
  ['d', 'i', 's', 'c', 'r', 'e', 't', 'e', '-', 'c', 'o', 'i', 'n', 'b', 'a', 's', 'e', '-', 'r', 'h',
   'o', '-', 'v', '1']

/-- mirrors PqDerive.cpp:121-130 -/
def coinbaseRho (P : Primitives) (spendPub : Blob pqAuthPubSize) (height outputIndex : UInt32) : Blob pqRhoSize :=
  P.sha3_256 (kDomainCoinbaseRho ++ spendPub.val ++ le32 height ++ le32 outputIndex)

/-- The coinbase pays the signer of the block.
mirrors Blockchain.cpp:1186-1236 -/
def validateBlockSignature (P : Primitives) (b : Block) (height : Nat) : Bool :=
  if height = 0 then true
  else if b.signature.length ≠ pqSignatureSize then false
  else
    match getPqMinerSpendPubFromExtra b.baseTransaction.extra, b.baseTransaction.outputs with
    | some spendPub, [o] =>
      match o.target with
      | .coinbase cb =>
        decide (cb.spendCommit = spendCommit P spendPub (coinbaseRho P spendPub (UInt32.ofNat height) 0))
      | _ => false
    | _, _ => false

/-! ## The push -/

inductive BlockError where
  | alreadyExists | version | mergeMiningTag | previousHash | timestamp | difficulty | checkpoint
  | proofOfWork | minerTransaction | signature | coinbase | freeRegLimit | duplicateRegistration
  | balance | inputs | transaction | size | reward
  deriving DecidableEq, Repr

/-- Which proof a block needs depends on its height: none at genesis, a matching
checkpoint in the zone, work above it. `prevalidated` is a proof-of-work hash the
caller has computed already.
mirrors Blockchain.cpp:2475-2504 -/
def checkBlockProof (E : Env) (height : Nat) (id : Hash) (b : Block) (difficulty : UInt64)
    (prevalidated : Option Hash) : Except BlockError Unit :=
  if height = 0 then .ok ()
  else if E.checkpoints.isInCheckpointZone height then
    if (E.checkpoints.checkBlock height id).1 then .ok () else .error .checkpoint
  else
    match prevalidated.or (E.prims.prevalidateBlockProofOfWork b) with
    | none => .error .proofOfWork
    | some proofOfWork => if checkHash proofOfWork difficulty then .ok () else .error .proofOfWork

/-- The state of the loop over a block's transactions. -/
structure BlockScan where
  db : Db
  slot : Nat
  freeRegCount : Nat
  pqRegistrationsInBlock : List Hash
  cumulativeBlockSize : Nat
  feeSummary : UInt64

/-- What a transaction of a block gives up.
mirrors Blockchain.cpp:2615-2638 -/
def blockTxFee (db : Db) (tx : Transaction) : Option UInt64 :=
  if tx.version ≥ transactionVersion1 ∧ isPqTransfer tx.txType then getPqTransactionFee db tx
  else if getOutputAmount tx > getInputAmount tx then none
  else some (getInputAmount tx - getOutputAmount tx)

def isFreeReg (tx : Transaction) : Bool :=
  decide (tx.version ≥ transactionVersion1) && decide (tx.txType = txFreeReg)

/-- One turn of the loop.
mirrors Blockchain.cpp:2586-2662 -/
def pushBlockTx (E : Env) (height : Nat) (s : BlockScan) (x : Hash × Transaction) :
    Except BlockError BlockScan :=
  let tx := x.2
  if isFreeReg tx ∧ s.freeRegCount + 1 > freeRegPerBlock then .error .freeRegLimit
  else
    let accountId := getPqAccountRegistrationId E.P tx
    if accountId.any (· ∈ s.pqRegistrationsInBlock) then .error .duplicateRegistration
    else
      match blockTxFee s.db tx with
      | none => .error .balance
      | some fee =>
        if ¬ E.checkpoints.isInCheckpointZone height ∧
            (checkTransactionInputs E s.db tx (some height)).isNone then .error .inputs
        else
          match pushTransaction E.P s.db height (s.slot + 1) x.1 tx with
          | none => .error .transaction
          | some db =>
            .ok { db := db
                  slot := s.slot + 1
                  freeRegCount := if isFreeReg tx then s.freeRegCount + 1 else s.freeRegCount
                  pqRegistrationsInBlock := accountId.toList ++ s.pqRegistrationsInBlock
                  cumulativeBlockSize := s.cumulativeBlockSize + (toBinaryArray tx).length
                  feeSummary := s.feeSummary + fee }

/-- The block-level writes.
mirrors Blockchain.cpp:2742-2776 -/
def writeBlockEntry (db : Db) (entry : DbBlockMeta) (b : Block) : Db :=
  let height := db.getChainHeight
  let prevGenTx := if height > 0 then (db.genTxCount (height - 1)).getD 0 else 0
  { db with
    metas := db.metas ++ [entry]
    blockData := db.blockData.put height b
    hashHeight := db.hashHeight.put entry.hash height
    timestamps := db.timestamps.put (entry.timestamp, entry.hash) ()
    genTxCount := db.genTxCount.put height (prevGenTx + UInt64.ofNat (b.transactionHashes.length + 1)) }

/-- The metadata of a new tip. -/
def blockEntry (db : Db) (b : Block) (id : Hash) (txCount size : Nat) (difficulty emissionChange : UInt64) :
    DbBlockMeta :=
  let height := db.getChainHeight
  let prev := if height > 0 then db.getBlockMeta (height - 1) else .zero
  { hash := id
    prevHash := if height > 0 then b.previousBlockHash else nullHash
    timestamp := b.timestamp
    cumulativeDifficulty := difficulty + prev.cumulativeDifficulty
    alreadyGeneratedCoins := prev.alreadyGeneratedCoins + emissionChange
    blockCumulativeSize := UInt32.ofNat size
    height := height
    txCount := txCount
    majorVersion := b.majorVersion
    minorVersion := b.minorVersion }

/-- Coins in circulation at the tip.
mirrors Blockchain.cpp:728-735 -/
def Db.getCoinsInCirculation (db : Db) : UInt64 :=
  if db.getChainHeight = 0 then 0 else (db.getBlockMeta (db.getChainHeight - 1)).alreadyGeneratedCoins

/-- The header checks, up to the proof of work; the difficulty of the block.
mirrors Blockchain.cpp:2417-2472 -/
def checkBlockHeader (E : Env) (now : Nat) (alt : Hash → Option BlockEntry) (db : Db) (b : Block) (id : Hash) :
    Except BlockError UInt64 :=
  if (db.hashHeight id).isSome then .error .alreadyExists
  else if ¬ checkBlockVersion b then .error .version
  else if b.majorVersion ≥ 5 ∧ (getMergeMiningTagFromExtra b.baseTransaction.extra).isSome then
    .error .mergeMiningTag
  else if b.previousBlockHash ≠ db.getTailId then .error .previousHash
  else if ¬ checkBlockTimestampMain db now b then .error .timestamp
  else
    let difficulty := getDifficultyForNextBlock E db alt b.previousBlockHash
    if difficulty = 0 then .error .difficulty else .ok difficulty

/-- The transactions of the block, from the coinbase on, written into `db`.
mirrors Blockchain.cpp:2579-2662 -/
def pushBlockTransactions (E : Env) (db : Db) (b : Block) (txs : List Transaction) :
    Except BlockError BlockScan :=
  match pushTransaction E.P db db.getChainHeight 0 (getObjectHash E.P b.baseTransaction) b.baseTransaction with
  | none => .error .coinbase
  | some db0 =>
    foldSteps (pushBlockTx E db.getChainHeight)
      { db := db0
        slot := 0
        freeRegCount := 0
        pqRegistrationsInBlock := []
        cumulativeBlockSize := getObjectBinarySize b.baseTransaction
        feeSummary := 0 }
      (b.transactionHashes.zip txs)

/-- `txs` are the transactions the block's hashes name, in their order.
mirrors Blockchain.cpp:2410-2739 -/
def pushBlock (E : Env) (now : Nat) (alt : Hash → Option BlockEntry) (prevalidated : Option Hash) (db : Db)
    (b : Block) (id : Hash) (txs : List Transaction) : Except BlockError Db :=
  match checkBlockHeader E now alt db b id with
  | .error e => .error e
  | .ok difficulty =>
    let height := db.getChainHeight
    match checkBlockProof E height id b difficulty prevalidated with
    | .error e => .error e
    | .ok () =>
      if ¬ prevalidateMinerTransaction b height then .error .minerTransaction
      else if ¬ validateBlockSignature E.P b height then .error .signature
      else
        match pushBlockTransactions E db b txs with
        | .error e => .error e
        | .ok s =>
          if s.cumulativeBlockSize > maxBlockCumulativeSize height then .error .size
          else
            match validateMinerTransaction db b height s.cumulativeBlockSize db.getCoinsInCirculation
                s.feeSummary with
            | none => .error .reward
            | some (_, emissionChange) =>
              .ok (writeBlockEntry s.db
                (blockEntry db b id (txs.length + 1) s.cumulativeBlockSize difficulty emissionChange) b)

/-! ## What a push establishes -/

/-- One turn has written exactly the transaction, which was fresh, and outside the
checkpoint zone has checked its inputs against everything before it. -/
theorem pushBlockTx_ok {E : Env} {height : Nat} {s s' : BlockScan} {x : Hash × Transaction}
    (h : pushBlockTx E height s x = .ok s') :
    TxFresh E.P s.db (s.slot + 1) x.1 x.2 ∧
      s'.db = writeTransaction E.P s.db height (s.slot + 1) x.1 x.2 ∧ s'.slot = s.slot + 1 ∧
      (∃ fee, blockTxFee s.db x.2 = some fee ∧ s'.feeSummary = s.feeSummary + fee) ∧
      (E.checkpoints.isInCheckpointZone height = false →
        ∃ m, checkTransactionInputs E s.db x.2 (some height) = some m) := by
  unfold pushBlockTx at h
  dsimp only at h
  split at h; · cases h
  split at h; · cases h
  split at h; · cases h
  rename_i fee hfee
  split at h; · cases h
  rename_i hin
  split at h; · cases h
  rename_i db' hpush
  obtain ⟨hfresh, hdb⟩ := pushTransaction_eq_some.mp hpush
  simp only [Except.ok.injEq] at h
  subst h
  refine ⟨hfresh, hdb, rfl, ⟨fee, hfee, rfl⟩, fun hz => ?_⟩
  rw [← Option.isSome_iff_exists, ← Option.not_isNone]
  simp only [hz, Bool.false_eq_true, not_false_eq_true, true_and, Bool.not_eq_true] at hin
  simp [hin]

/-- A push that went through, taken apart. -/
structure PushOk (E : Env) (now : Nat) (alt : Hash → Option BlockEntry) (prevalidated : Option Hash) (db : Db)
    (b : Block) (id : Hash) (txs : List Transaction) (s : BlockScan) (difficulty reward emissionChange : UInt64) :
    Prop where
  header : checkBlockHeader E now alt db b id = .ok difficulty
  proof : checkBlockProof E db.getChainHeight id b difficulty prevalidated = .ok ()
  miner : prevalidateMinerTransaction b db.getChainHeight = true
  signature : validateBlockSignature E.P b db.getChainHeight = true
  transactions : pushBlockTransactions E db b txs = .ok s
  size : s.cumulativeBlockSize ≤ maxBlockCumulativeSize db.getChainHeight
  reward : validateMinerTransaction db b db.getChainHeight s.cumulativeBlockSize db.getCoinsInCirculation
    s.feeSummary = some (reward, emissionChange)

theorem pushBlock_ok {E : Env} {now : Nat} {alt : Hash → Option BlockEntry} {prevalidated : Option Hash}
    {db db' : Db} {b : Block} {id : Hash} {txs : List Transaction} :
    pushBlock E now alt prevalidated db b id txs = .ok db' ↔ ∃ s difficulty reward emissionChange,
        PushOk E now alt prevalidated db b id txs s difficulty reward emissionChange ∧ db' = writeBlockEntry s.db
          (blockEntry db b id (txs.length + 1) s.cumulativeBlockSize difficulty emissionChange) b := by
  unfold pushBlock
  constructor
  · intro h
    split at h; · cases h
    rename_i difficulty hheader
    dsimp only at h
    split at h; · cases h
    rename_i hproof
    split at h; · cases h
    rename_i hminer
    split at h; · cases h
    rename_i hsig
    split at h; · cases h
    rename_i s hs
    split at h; · cases h
    rename_i hsize
    split at h; · cases h
    rename_i reward emission hreward
    simp only [Except.ok.injEq] at h
    exact ⟨s, difficulty, reward, emission, ⟨hheader, hproof, by simpa using hminer, by simpa using hsig, hs,
      by omega, hreward⟩, h.symm⟩
  · rintro ⟨s, difficulty, reward, emission, h, rfl⟩
    have hsize := h.size
    simp only [h.header, h.proof, h.miner, h.signature, h.transactions, h.reward, not_true_eq_false, if_false]
    rw [if_neg (by omega)]

/-- The header checks that passed. -/
theorem checkBlockHeader_ok {E : Env} {now : Nat} {alt : Hash → Option BlockEntry} {db : Db} {b : Block}
    {id : Hash} {difficulty : UInt64} (h : checkBlockHeader E now alt db b id = .ok difficulty) :
    db.hashHeight id = none ∧ b.previousBlockHash = db.getTailId ∧ b.timestamp.toNat ≤ now + blockFutureTimeLimit := by
  unfold checkBlockHeader at h
  split at h; · cases h
  rename_i hid
  split at h; · cases h
  split at h; · cases h
  split at h; · cases h
  rename_i hprev
  split at h; · cases h
  rename_i hts
  refine ⟨by simpa using hid, by simpa using hprev, ?_⟩
  unfold checkBlockTimestampMain at hts
  by_contra hlt
  rw [if_pos (by omega)] at hts
  exact hts (by simp)

end Discrete.L3
