import Discrete.L4Node.Pool

/-!
# The node (`Blockchain.cpp`, `Core.cpp`)

The main chain, the memory pool and the stored alternative blocks, and the calls
that change them: blocks and transactions that arrive, reorganisations, the
operator's rollbacks, expiry and block templates. Each public call holds the locks
of the pool and of the chain throughout, so calls are the steps of `nodeLts`.

* A call that throws `std::runtime_error` leaves the state it had reached:
  `Outcome.threw`.
* `time(NULL)` is a monotone clock, read at the positions `reads` counts.
* `handleAlternativeBlock` and `switchToAlternativeBlockchain` call each other: a
  switch hands the blocks it disconnected back as alternative blocks. Calls nest at
  most `fuel` deep; `none` is a call that has not returned at that depth, or a walk
  along stored blocks that comes back to where it was.

Left out: the verification flags and log texts of a call, observers, and
`checkParentBlockSize`, which only looks at block versions that no height has.
-/
namespace Discrete.L4
open L1 L2 L3

/-- What a node is built with and the clock it reads. -/
structure NodeEnv extends Env where
  clock : Nat → Nat
  clock_mono : Monotone clock

/-- mirrors FinalityForkState.h:22-30 -/
structure FinalityForkState where
  active : Bool
  localTipHeight : Nat
  localTipHash : Hash
  competingTipHeight : Nat
  competingTipHash : Hash
  divergenceHeight : Nat
  refusedDepth : Nat

def FinalityForkState.clear : FinalityForkState := ⟨false, 0, nullHash, 0, nullHash, 0, 0⟩

/-- `m_alternative_chains` -/
abbrev AlternativeChains := MultiIndex (Prod.fst : Hash × BlockEntry → Hash)

structure Node where
  db : Db
  pool : Pool
  alternativeChains : AlternativeChains
  /-- `m_orphanBlocksIndex`, a multimap: the heights and ids of the alternative blocks. -/
  orphanBlocksIndex : List (Nat × Hash)
  finalityForkState : FinalityForkState
  currentBlockCumulSzLimit : Nat
  /-- How often the clock was read. -/
  reads : Nat

/-- A store that has just been created. -/
def Node.new : Node where
  db := .empty
  pool := .empty
  alternativeChains := .empty
  orphanBlocksIndex := []
  finalityForkState := .clear
  currentBlockCumulSzLimit := 0
  reads := 0

inductive Outcome where
  | returned (result : Bool)
  | threw
  deriving DecidableEq, Repr

variable (N : NodeEnv)

/-! ## The pool and the chain -/

/-- `add_tx` of a transaction whose id and size are computed from it.
mirrors TransactionPool.cpp:287-292 -/
def Node.addTx (s : Node) (tx : Transaction) (keptByBlock : Bool) : Bool × Node :=
  let r := L4.addTx N.toEnv s.db s.currentBlockCumulSzLimit (N.clock s.reads) s.pool tx (getObjectHash N.P tx)
    (getObjectBinarySize tx) keptByBlock
  (r.1, { s with pool := r.2, reads := s.reads + 1 })

/-- Last transaction first; a failure is only logged.
mirrors Blockchain.cpp:3562-3569 -/
def Node.saveTransactions (s : Node) (transactions : List Transaction) : Node :=
  transactions.reverse.foldl (fun s tx => (s.addTx N tx true).2) s

inductive Loaded where
  | all (transactions : List Transaction)
  | missing
  | threw

/-- Give back what was taken, last first; `false` is the exception. -/
def Node.putBack : Node → List Transaction → Bool × Node
  | s, [] => (true, s)
  | s, tx :: l =>
    match s.addTx N tx true with
    | (true, s) => s.putBack l
    | (false, s) => (false, s)

/-- The loop of `loadTransactions`; `taken` holds the transactions so far, last first. -/
def Node.takeAll : Node → List Transaction → List Hash → Loaded × Node
  | s, taken, [] => (.all taken.reverse, s)
  | s, taken, id :: ids =>
    match takeTx N.P s.pool id with
    | some (tx, pool) => { s with pool := pool }.takeAll (tx :: taken) ids
    | none =>
      match s.putBack N taken with
      | (true, s) => (.missing, s)
      | (false, s) => (.threw, s)

/-- mirrors Blockchain.cpp:3544-3560 -/
def Node.loadTransactions (s : Node) (block : Block) : Loaded × Node := s.takeAll N [] block.transactionHashes

/-- The entry of an alternative block. -/
def Node.findAlternative (s : Node) (h : Hash) : Option BlockEntry := (s.alternativeChains.find h).map Prod.snd

/-- mirrors Blockchain.cpp:1049-1063 -/
def updateNextCumulativeSizeLimit (db : Db) : Nat :=
  max (medianValue (db.getLastNBlocksSizes rewardBlocksWindow)) blockGrantedFullRewardZone * 2

/-- mirrors Blockchain.cpp:2395-2408 -/
def Node.pushBlock (s : Node) (b : Block) (id : Hash) (prevalidated : Option Hash) : Outcome × Node :=
  match s.loadTransactions N b with
  | (.missing, s) => (.returned false, s)
  | (.threw, s) => (.threw, s)
  | (.all transactions, s) =>
    match L3.pushBlock N.toEnv (N.clock s.reads) s.findAlternative prevalidated s.db b id transactions with
    | .ok db =>
      (.returned true, { s with
        db := db
        currentBlockCumulSzLimit := updateNextCumulativeSizeLimit db
        reads := s.reads + 1 })
    | .error _ => (.returned false, { s with reads := s.reads + 1 }.saveTransactions N transactions)

/-- The transactions go back to the pool while their block is still on the chain.
Without a block, or without one of its entries, nothing has been written yet.
mirrors Blockchain.cpp:2778-2809 -/
def Node.popBlock (s : Node) : Node :=
  let height := s.db.getChainHeight - 1
  match (List.range ((s.db.getBlockMeta height).txCount - 1)).mapM fun t =>
      s.db.transactionByIndex height (t + 1) with
  | none => s
  | some transactions =>
    let s := s.saveTransactions N transactions
    { s with db := removeLastBlock N.P s.db }

/-! ## Switching to an alternative chain -/

/-- What `operator[]` gives for a hash that is not stored. -/
def defaultBlockEntry : BlockEntry where
  bl :=
    { majorVersion := 0
      minorVersion := 0
      nonce := 0
      timestamp := 0
      previousBlockHash := nullHash
      baseTransaction :=
        { version := 0, txType := 0, unlockHeight := 0, inputs := [], outputs := [], extra := [], pqSignatures := [] }
      signature := []
      transactionHashes := [] }
  height := 0
  cumulativeDifficulty := 0
  blockCumulativeSize := 0

def Node.alternativeAt (s : Node) (h : Hash) : BlockEntry := (s.findAlternative h).getD defaultBlockEntry

/-- An entry goes from the index under the height its block states.
mirrors Blockchain.cpp:1312-1319,1355-1366 -/
def Node.eraseAlternative (s : Node) (h : Hash) : Node :=
  { s with
    alternativeChains := s.alternativeChains.erase h
    orphanBlocksIndex := s.orphanBlocksIndex.filter fun x => x ≠ (getBlockHeight (s.alternativeAt h).bl, h) }

def Node.eraseAlternatives (s : Node) (hashes : List Hash) : Node := hashes.foldl Node.eraseAlternative s

/-- Pop `n` blocks and collect them, lowest first.
mirrors Blockchain.cpp:1291-1300 -/
def Node.disconnect : Nat → Node → List Block → List Block × Node
  | 0, s, disconnected => (disconnected, s)
  | n + 1, s, disconnected =>
    Node.disconnect n (s.popBlock N) ((s.db.blockData (s.db.getChainHeight - 1)).toList ++ disconnected)

inductive Connected where
  | all
  | failed (rest : List Hash)
  | threw

/-- Push the stored blocks one after the other; `rest` starts at the one that failed.
mirrors Blockchain.cpp:1303-1307 -/
def Node.connect : Node → List Hash → Connected × Node
  | s, [] => (.all, s)
  | s, h :: rest =>
    let b := (s.alternativeAt h).bl
    match s.pushBlock N b (N.prims.getBlockHash b) none with
    | (.returned true, s) => s.connect rest
    | (.returned false, s) => (.failed (h :: rest), s)
    | (.threw, s) => (.threw, s)

/-- Push blocks again, up to the first that fails. -/
def Node.reconnect : Node → List Block → Outcome × Node
  | s, [] => (.returned true, s)
  | s, b :: rest =>
    match s.pushBlock N b (N.prims.getBlockHash b) none with
    | (.returned true, s) => s.reconnect rest
    | (.returned false, s) => (.returned false, s)
    | (.threw, s) => (.threw, s)

/-- mirrors Blockchain.cpp:1240-1257 -/
def Node.rollbackBlockchainSwitching (s : Node) (originalChain : List Block) (rollbackHeight : Nat) :
    Outcome × Node :=
  ((Node.popBlock N)^[s.db.getChainHeight - rollbackHeight] s).reconnect N originalChain

/-- Hand blocks to `handle`, up to the first that it refuses. -/
def handBack (handle : Node → Block → Option (Outcome × Node)) : Node → List Block → Option (Outcome × Node)
  | s, [] => some (.returned true, s)
  | s, b :: rest =>
    match handle s b with
    | some (.returned true, s) => handBack handle s rest
    | r => r

/-- `handle` is what takes back a disconnected block. The verdict of the rollback is
not looked at.
mirrors Blockchain.cpp:1259-1380 -/
def Node.switchWith (handle : Node → Block → Option (Outcome × Node)) (s : Node) (altChain : List Hash)
    (discardDisconnectedChain : Bool) : Option (Outcome × Node) :=
  match altChain with
  | [] => some (.returned false, s)
  | front :: _ =>
    let splitHeight := (s.alternativeAt front).height
    if ¬ s.db.getChainHeight > splitHeight then some (.returned false, s)
    else if ¬ altChain.all fun h => checkBlockVersion (s.alternativeAt h).bl then some (.returned false, s)
    else
      let (disconnected, s) := Node.disconnect N (s.db.getChainHeight - splitHeight) s []
      match s.connect N altChain with
      | (.threw, s) => some (.threw, s)
      | (.failed rest, s) =>
        match s.rollbackBlockchainSwitching N disconnected splitHeight with
        | (.threw, s) => some (.threw, s)
        | (.returned _, s) => some (.returned false, s.eraseAlternatives rest)
      | (.all, s) =>
        match (if discardDisconnectedChain then some (.returned true, s) else handBack handle s disconnected) with
        | none => none
        | some (.threw, s) => some (.threw, s)
        | some (.returned _, s) =>
          some (.returned true, { s.eraseAlternatives altChain with finalityForkState := .clear })

/-! ## Alternative blocks -/

/-- The stored blocks from `h` back along the hash links, youngest first; `none` when
the links lead in a circle. -/
def altWalk (alts : AlternativeChains) : Nat → Hash → Option (List (Hash × BlockEntry))
  | 0, h => if (alts.find h).isSome then none else some []
  | n + 1, h =>
    match alts.find h with
    | none => some []
    | some x => (altWalk alts n x.2.bl.previousBlockHash).map (x :: ·)

/-- The known transactions of a block, on the chain or in the pool, and the coinbase.
mirrors Blockchain.cpp:1038-1047 -/
def Node.getBlockCumulativeSize (s : Node) (b : Block) : Nat :=
  getObjectBinarySize b.baseTransaction + ((b.transactionHashes.filterMap fun h =>
      match s.db.txIndex h with
      | some (block, slot) => s.db.transactionByIndex block slot
      | none => s.pool.view h).map getObjectBinarySize).sum

/-- The `do … while` loop takes the heights from `startTopHeight` down to the one
above `stopOffset`.
mirrors Blockchain.cpp:926-948 -/
def completeTimestampsVector (db : Db) (startTopHeight : Nat) (timestamps : List UInt64) : List UInt64 :=
  if timestamps.length ≥ timestampCheckWindow then timestamps
  else if ¬ startTopHeight < db.getChainHeight then timestamps
  else
    let needElements := timestampCheckWindow - timestamps.length
    let stopOffset := if startTopHeight > needElements then startTopHeight - needElements else 0
    let heights := if startTopHeight = 0 then [0] else (List.range (startTopHeight - stopOffset)).map (startTopHeight - ·)
    timestamps ++ heights.map fun h => (db.getBlockMeta h).timestamp

/-- What an alternative block extends: the stored blocks, oldest first, its height,
the work of its parent and the timestamps before it. -/
structure Branch where
  altChain : List Hash
  height : Nat
  cumulativeDifficulty : UInt64
  timestamps : List UInt64

/-- `none` when the stored blocks do not connect to the main chain.
mirrors Blockchain.cpp:1448-1490 -/
def Node.branch (s : Node) (walk : List (Hash × BlockEntry)) (mainPrevHeight : Option Nat) : Option Branch :=
  match walk.head?, walk.getLast? with
  | some prev, some front =>
    if ¬ s.db.getChainHeight > front.2.height then none
    else if (s.db.blockData (front.2.height - 1)).map N.prims.getBlockHash ≠ some front.2.bl.previousBlockHash then none
    else
      some { altChain := (walk.map Prod.fst).reverse
             height := prev.2.height + 1
             cumulativeDifficulty := prev.2.cumulativeDifficulty
             timestamps := completeTimestampsVector s.db (front.2.height - 1) (walk.map fun x => x.2.bl.timestamp) }
  | _, _ =>
    match mainPrevHeight with
    | none => none
    | some height =>
      some { altChain := []
             height := height + 1
             cumulativeDifficulty := (s.db.getBlockMeta height).cumulativeDifficulty
             timestamps := completeTimestampsVector s.db height [] }

/-- The entry of an alternative block that passes, and whether a checkpoint names it.
mirrors Blockchain.cpp:1481-1553 -/
def Node.checkAlternativeBlock (s : Node) (b : Block) (id : Hash) (prevalidated : Option Hash) (br : Branch) :
    Option (BlockEntry × Bool) :=
  if ¬ checkBlockTimestamp br.timestamps b then none
  else if ¬ (N.checkpoints.checkBlock br.height id).1 then none
  else if b.majorVersion ≥ 5 ∧ (getMergeMiningTagFromExtra b.baseTransaction.extra).isSome then none
  else
    let currentDiff := getDifficultyForNextBlock N.toEnv s.db s.findAlternative b.previousBlockHash
    if currentDiff = 0 then none
    else if ¬ (prevalidated.or (N.prims.prevalidateBlockProofOfWork b)).any (checkHash · currentDiff) then none
    else if ¬ prevalidateMinerTransaction b br.height then none
    else if ¬ validateBlockSignature N.P b br.height then none
    else
      some (⟨b, br.height, br.cumulativeDifficulty + currentDiff, 0⟩, (N.checkpoints.checkBlock br.height id).2)

/-- `some height` when the block would have been a valid block of a stored branch.
mirrors Blockchain.cpp:3100-3158 -/
def Node.validateCompetingBlock (s : Node) (b : Block) : Option Nat :=
  match ((s.findAlternative b.previousBlockHash).map BlockEntry.height).or (s.db.hashHeight b.previousBlockHash) with
  | none => none
  | some parentHeight =>
    let validatedHeight := parentHeight + 1
    let f := s.finalityForkState
    let diff := getDifficultyForNextBlock N.toEnv s.db s.findAlternative b.previousBlockHash
    if f.active ∧ f.divergenceHeight ≤ validatedHeight - 1 ∧ f.competingTipHeight ≥ validatedHeight then none
    else if ¬ checkBlockVersion b then none
    else if ¬ prevalidateMinerTransaction b validatedHeight then none
    else if ¬ validateBlockSignature N.P b validatedHeight then none
    else if diff = 0 then none
    else if ¬ (N.prims.prevalidateBlockProofOfWork b).any (checkHash · diff) then none
    else some validatedHeight

/-- mirrors Blockchain.cpp:3160-3182 -/
def Node.recordFinalityFork (s : Node) (altBlockHeight : Nat) (altBlockId : Hash) : Node :=
  let f := s.finalityForkState
  let localTipHeight := s.db.getChainHeight - 1
  let divergence := altBlockHeight - 1
  let divergenceHeight := if f.active then min f.divergenceHeight divergence else divergence
  let higher := !f.active || decide (altBlockHeight ≥ f.competingTipHeight)
  { s with
    finalityForkState :=
      { active := true
        localTipHeight := localTipHeight
        localTipHash := s.db.getTailId
        competingTipHeight := if higher then altBlockHeight else f.competingTipHeight
        competingTipHash := if higher then altBlockId else f.competingTipHash
        divergenceHeight := divergenceHeight
        refusedDepth := localTipHeight - divergenceHeight } }

/-- `none` when there is an entry under `id` already.
mirrors Blockchain.cpp:1552-1558 -/
def Node.insertAlternative (s : Node) (id : Hash) (bei : BlockEntry) : Option Node :=
  (s.alternativeChains.insert (fun _ _ => true) (id, bei)).map fun alts =>
    { s with
      alternativeChains := alts
      orphanBlocksIndex := (bei.height, id) :: s.orphanBlocksIndex }

/-- Store an alternative block and switch to its branch when a checkpoint names it or
it has more work than the tip.
mirrors Blockchain.cpp:1555-1606 -/
def Node.storeAlternativeBlock (switch : Node → List Hash → Bool → Option (Outcome × Node)) (s : Node) (id : Hash)
    (br : Branch) (bei : BlockEntry) (isACheckpoint : Bool) : Option (Outcome × Node) :=
  match s.insertAlternative id bei with
  | none => some (.returned false, s)
  | some s =>
    if isACheckpoint then switch s (br.altChain ++ [id]) true
    else if (s.db.getBlockMeta (s.db.getChainHeight - 1)).cumulativeDifficulty < bei.cumulativeDifficulty then
      switch s (br.altChain ++ [id]) false
    else some (.returned true, s)

/-- A block whose parent is not known is dropped with a positive answer.
mirrors Blockchain.cpp:1384-1612 -/
def Node.handleWith (switch : Node → List Hash → Bool → Option (Outcome × Node)) (s : Node) (b : Block) (id : Hash)
    (prevalidated : Option Hash) : Option (Outcome × Node) :=
  let blockHeight := getBlockHeight b
  let chainLen := s.db.getChainHeight
  if blockHeight = 0 then some (.returned false, s)
  else if ¬ N.checkpoints.isAlternativeBlockAllowed chainLen blockHeight then
    match (if N.checkpoints.isFinalityViolation chainLen blockHeight then s.validateCompetingBlock N b else none) with
    | none => some (.returned false, s)
    | some validatedHeight => some (.returned false, s.recordFinalityFork validatedHeight id)
  else if ¬ checkBlockVersion b then some (.returned false, s)
  else if s.getBlockCumulativeSize b > maxBlockCumulativeSize blockHeight then some (.returned false, s)
  else
    let mainPrevHeight := s.db.hashHeight b.previousBlockHash
    match altWalk s.alternativeChains s.alternativeChains.entries.length b.previousBlockHash with
    | none => none
    | some walk =>
      if walk = [] ∧ mainPrevHeight = none then some (.returned true, s)
      else
        match s.branch N walk mainPrevHeight with
        | none => some (.returned false, s)
        | some br =>
          match s.checkAlternativeBlock N b id prevalidated br with
          | none => some (.returned false, s)
          | some (bei, isACheckpoint) => s.storeAlternativeBlock switch id br bei isACheckpoint

/-- `fuel` bounds how deep a switch and the blocks it hands back nest. -/
def handleAlternativeBlock : Nat → Node → Block → Hash → Option Hash → Option (Outcome × Node)
  | 0, _, _, _, _ => none
  | fuel + 1, s, b, id, prevalidated =>
    s.handleWith N
      (Node.switchWith N fun s b => handleAlternativeBlock fuel s b (N.prims.getBlockHash b) none)
      b id prevalidated

def switchToAlternativeBlockchain (fuel : Nat) : Node → List Hash → Bool → Option (Outcome × Node) :=
  Node.switchWith N fun s b => handleAlternativeBlock N fuel s b (N.prims.getBlockHash b) none

/-! ## Public calls -/

/-- mirrors Blockchain.cpp:1809-1814 -/
def Node.haveBlock (s : Node) (id : Hash) : Bool := (s.db.hashHeight id).isSome || (s.findAlternative id).isSome

/-- A proof of work computed ahead of the call, with the id of its block. -/
structure PrevalidatedBlockProof where
  blockHash : Hash
  proofOfWork : Hash

/-- mirrors Blockchain.cpp:2310-2361 -/
def addNewBlock (fuel : Nat) (s : Node) (b : Block) (prevalidated : Option PrevalidatedBlockProof) :
    Option (Outcome × Node) :=
  let id := N.prims.getBlockHash b
  let proof := prevalidated.map PrevalidatedBlockProof.proofOfWork
  if prevalidated.any fun p => p.blockHash ≠ id then some (.returned false, s)
  else if s.haveBlock id then some (.returned false, s)
  else if b.previousBlockHash ≠ s.db.getTailId then handleAlternativeBlock N fuel s b id proof
  else some (s.pushBlock N b id proof)

/-- The verdict at this chain. The source also passes on a proof it remembers as good;
what the memory does to the answers is in `FreeRegProofs`.
mirrors Blockchain.cpp:2205-2241 -/
def precheckFreeRegPow (db : Db) (tx : Transaction) : Bool := (checkFreeRegInputs N.toEnv db tx).isSome

/-- mirrors Core.cpp:476-492 -/
def Node.addNewTx (s : Node) (tx : Transaction) (txHash : Hash) (blobSize : Nat) (keptByBlock : Bool) :
    Bool × Node :=
  if (s.db.txIndex txHash).isSome then (true, s)
  else if s.pool.haveTx txHash then (true, s)
  else
    let r := L4.addTx N.toEnv s.db s.currentBlockCumulSzLimit (N.clock s.reads) s.pool tx txHash blobSize keptByBlock
    (r.1, { s with pool := r.2, reads := s.reads + 1 })

/-- The rule on classical output amounts never decides: a transaction of version 0
with outputs does not pass the gate.
mirrors Core.cpp:1254-1351 -/
def Node.handleIncomingTransaction (s : Node) (tx : Transaction) (txHash : Hash) (blobSize : Nat)
    (keptByBlock : Bool) (height : Nat) : Bool × Node :=
  let checked := !N.checkpoints.isInCheckpointZone s.db.getChainHeight
  if checked ∧ blobSize > maxTransactionSizeLimit then (false, s)
  else if checked ∧ ¬ pqOnlyInputs tx ∧ ¬ checkTxFee N.toEnv tx height then (false, s)
  else if checked ∧ tx.unlockHeight.toNat > maxBlockHeight then (false, s)
  else if ¬ checkTxSemantic N.P tx keptByBlock then (false, s)
  else if ¬ keptByBlock ∧ isFreeReg tx ∧ ¬ precheckFreeRegPow N s.db tx then (false, s)
  else s.addNewTx N tx txHash blobSize keptByBlock

/-- mirrors Core.cpp:264-292 -/
def handleIncomingTx (s : Node) (txBlob : Bytes) (keptByBlock : Bool) : Bool × Node :=
  if txBlob.length > maxTransactionSizeLimit then (false, s)
  else
    match parseAndValidateTransactionFromBinaryArray N.P txBlob with
    | none => (false, s)
    | some (tx, txHash) =>
      let height := ((s.db.txIndex txHash).map Prod.fst).getD s.db.getChainHeight
      s.handleIncomingTransaction N tx txHash txBlob.length keptByBlock height

/-- The hashes for a block on top of the chain, and the node after filling it in. -/
def Node.fillBlockTemplate (s : Node) (medianSize maxCumulativeSize : Nat) : List Hash × Node :=
  let r := L4.fillBlockTemplate N.toEnv s.db s.pool medianSize maxCumulativeSize
  (r.template.txHashes, { s with pool := r.pool })

def Node.getDifference (s : Node) : Node := { s with pool := L4.getDifference N.toEnv s.db s.pool }

/-- mirrors TransactionPool.cpp:631-637 -/
def Node.onIdle (s : Node) : Node :=
  { s with
    pool := removeStaleAccountRegistrations N.P s.db (removeExpiredTransactions N.P (N.clock s.reads) s.pool)
    reads := s.reads + 1 }

/-- Blocks removed this way do not give their transactions back. Heights are below
`2 ^ 32 - 1`.
mirrors Blockchain.cpp:3077-3096 -/
def Node.rollbackBlockchainTo (s : Node) (height : Nat) : Node :=
  { s with db := (removeLastBlock N.P)^[s.db.getChainHeight - (height + 1)] s.db }

/-- mirrors Blockchain.cpp:3189-3225 -/
def Node.resyncToMajority (s : Node) : Bool × Node :=
  let target := s.finalityForkState.divergenceHeight
  if ¬ s.finalityForkState.active then (false, s)
  else if ¬ target < s.db.getChainHeight - 1 then (false, s)
  else (true, { s.rollbackBlockchainTo N target with finalityForkState := .clear })

/-! ## The transition system -/

/-- A call to `addNewBlock` that comes back, with a proof of work computed from the
block if one is handed in. -/
inductive BlockCall : Node → Node → Prop where
  | mk {s s' : Node} {outcome : Outcome} (fuel : Nat) (b : Block) (prevalidated : Option PrevalidatedBlockProof) :
      (∀ p ∈ prevalidated, N.prims.prevalidateBlockProofOfWork b = some p.proofOfWork) →
      addNewBlock N fuel s b prevalidated = some (outcome, s') → BlockCall s s'

/-- Calls that leave the chain alone. -/
inductive PoolCall : Node → Node → Prop where
  | transaction {s : Node} (txBlob : Bytes) (keptByBlock : Bool) : PoolCall s (handleIncomingTx N s txBlob keptByBlock).2
  | template {s : Node} (medianSize maxCumulativeSize : Nat) :
      PoolCall s (s.fillBlockTemplate N medianSize maxCumulativeSize).2
  | difference {s : Node} : PoolCall s (s.getDifference N)
  | idle {s : Node} : PoolCall s (s.onIdle N)

/-- What an operator can ask for. -/
inductive OperatorCall : Node → Node → Prop where
  | rollback {s : Node} (height : Nat) : OperatorCall s (s.rollbackBlockchainTo N height)
  | resync {s : Node} : OperatorCall s (s.resyncToMajority N).2

/-- A new store into which a genesis block without transactions was pushed. -/
def NodeInit (s : Node) : Prop :=
  ∃ genesis, genesis.transactionHashes = [] ∧
    Node.new.pushBlock N genesis (N.prims.getBlockHash genesis) none = (.returned true, s)

def nodeLts : Lts Node where
  Init := NodeInit N
  Step s s' := BlockCall N s s' ∨ PoolCall N s s' ∨ OperatorCall N s s'

end Discrete.L4
