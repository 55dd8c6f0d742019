import Discrete.Core.MultiIndex
import Discrete.L3Ledger.Chain

/-!
# The memory pool (`TransactionPool.cpp`, `TransactionPool.h`)

Transactions waiting for a block, with the answers that were cached for each: the
blocks the last input checks ran against (`TransactionCheckInfo`) and the
process-wide set of ids that once passed (`m_validated_transactions`).

The payment-id and timestamp indices, which only answer queries, are left out. The
tables of claimed spend tags and accounts map a key to a set of
ids; they are kept as sets of pairs.

* `Pool.view`: what a pool holds, as a table from ids to transactions.
* `addTx_kept_view`: a transaction that passed the relay gate and comes with a block
  is in the pool after `add_tx`, whatever `add_tx` returns.
* `takeTx_view`: `take_tx` removes exactly what it hands out.
-/
namespace Discrete.L4
open L1 L2 L3

/-! ## Input checks with cached blocks -/

/-- mirrors ITransactionValidator.h:24-40 -/
structure BlockInfo where
  height : Nat
  id : Hash
  deriving DecidableEq

def BlockInfo.clear : BlockInfo := ⟨0, nullHash⟩

def BlockInfo.empty (b : BlockInfo) : Bool := decide (b.id = nullHash)

/-- mirrors TransactionPool.h:138-141 -/
structure TransactionCheckInfo where
  maxUsedBlock : BlockInfo
  lastFailedBlock : BlockInfo
  deriving DecidableEq

/-- The checks by type begin by resetting the caller's maximum height; a refusal
before that leaves it. -/
def resetsMaxUsed (E : Env) (db : Db) (tx : Transaction) : Bool :=
  decide (tx.version = transactionVersion1) && !isPqAccountAlreadyRegistered E.P db tx &&
    (isPqTransfer tx.txType && E.currency.isPqTransferTypeAllowedAt tx.txType db.getChainHeight ||
      decide (tx.txType = txFreeReg))

/-- The verdict at the tip and the block the transaction depends on.
mirrors Blockchain.cpp:1864-1882 -/
def checkTransactionInputsMaxUsed (E : Env) (db : Db) (tx : Transaction) (maxUsed : BlockInfo) :
    Bool × BlockInfo :=
  match checkTransactionInputs E db tx none with
  | none => (false, { maxUsed with height := if resetsMaxUsed E db tx then 0 else maxUsed.height })
  | some max? =>
    let height := max?.getD maxUsed.height
    if height < db.getChainHeight then (true, ⟨height, (db.getBlockMeta height).hash⟩)
    else (false, { maxUsed with height := height })

/-- A new check; a failure is remembered with the tip it was seen at. -/
def recheckTransactionInputs (E : Env) (db : Db) (tx : Transaction) (info : TransactionCheckInfo) :
    Bool × TransactionCheckInfo :=
  match checkTransactionInputsMaxUsed E db tx info.maxUsedBlock with
  | (true, maxUsed) => (true, { info with maxUsedBlock := maxUsed })
  | (false, maxUsed) => (false, ⟨maxUsed, ⟨db.getChainHeight - 1, db.getTailId⟩⟩)

/-- The cached blocks can only turn a check into a refusal.
mirrors Blockchain.cpp:135-162 -/
def checkTransactionInputsCached (E : Env) (db : Db) (tx : Transaction) (info : TransactionCheckInfo) :
    Bool × TransactionCheckInfo :=
  if info.maxUsedBlock.empty then
    if ¬ info.lastFailedBlock.empty ∧ db.getChainHeight > info.lastFailedBlock.height ∧
        db.getBlockIdByHeight info.lastFailedBlock.height = info.lastFailedBlock.id then (false, info)
    else recheckTransactionInputs E db tx info
  else if info.maxUsedBlock.height ≥ db.getChainHeight then (false, info)
  else if db.getBlockIdByHeight info.maxUsedBlock.height ≠ info.maxUsedBlock.id ∧
      info.lastFailedBlock.id = db.getBlockIdByHeight info.lastFailedBlock.height then (false, info)
  else recheckTransactionInputs E db tx info

/-- mirrors Blockchain.cpp:1884-1894 -/
def haveTransactionKeyImagesAsSpent (P : Primitives) (db : Db) (tx : Transaction) : Bool :=
  (spendImages P tx).any fun k => (db.spentKeys k).isSome

/-- mirrors TransactionPool.cpp:432-443 -/
def isTransactionReadyToGo (E : Env) (db : Db) (tx : Transaction) (info : TransactionCheckInfo) :
    Bool × TransactionCheckInfo :=
  match checkTransactionInputsCached E db tx info with
  | (false, info) => (false, info)
  | (true, info) => (!haveTransactionKeyImagesAsSpent E.P db tx, info)

variable {E : Env} {db : Db} {tx : Transaction}

theorem checkTransactionInputsMaxUsed_true {maxUsed : BlockInfo}
    (h : (checkTransactionInputsMaxUsed E db tx maxUsed).1 = true) : (checkTransactionInputs E db tx none).isSome := by
  unfold checkTransactionInputsMaxUsed at h
  split at h
  · cases h
  · rename_i heq
    rw [heq]
    rfl

/-- Ready means that the check passes on the chain as it is. -/
theorem isTransactionReadyToGo_true {info : TransactionCheckInfo} (h : (isTransactionReadyToGo E db tx info).1 = true) :
    (checkTransactionInputs E db tx none).isSome := by
  have hre : (recheckTransactionInputs E db tx info).1 = true → (checkTransactionInputs E db tx none).isSome := by
    intro hr
    unfold recheckTransactionInputs at hr
    split at hr
    · rename_i heq
      exact checkTransactionInputsMaxUsed_true (by rw [heq])
    · cases hr
  have hcached : (checkTransactionInputsCached E db tx info).1 = true := by
    unfold isTransactionReadyToGo at h
    split at h
    · cases h
    · rename_i heq
      rw [heq]
  unfold checkTransactionInputsCached at hcached
  split at hcached
  · split at hcached
    · cases hcached
    · exact hre hcached
  · split at hcached
    · cases hcached
    · split at hcached
      · cases hcached
      · exact hre hcached

/-! ## The pool -/

/-- mirrors TransactionPool.h:143-150 -/
structure TransactionDetails extends TransactionCheckInfo where
  id : Hash
  tx : Transaction
  blobSize : Nat
  fee : UInt64
  keptByBlock : Bool
  receiveTime : Nat

/-- More profitable, then smaller, then older. The products are taken in 128 bits.
mirrors TransactionPool.h:157-179 -/
def transactionPriority (lhs rhs : TransactionDetails) : Bool :=
  let l := lhs.fee.toNat * rhs.blobSize
  let r := rhs.fee.toNat * lhs.blobSize
  decide (l > r ∨ l = r ∧ lhs.blobSize < rhs.blobSize ∨
    l = r ∧ lhs.blobSize = rhs.blobSize ∧ lhs.receiveTime < rhs.receiveTime)

structure Pool where
  /-- `m_transactions`, in the order of the fee index. -/
  transactions : MultiIndex TransactionDetails.id
  /-- `m_spent_key_images`, as (tag, id) pairs. -/
  spentKeyImages : Finset (Hash × Hash)
  /-- `m_pq_account_registrations`, as (account, id) pairs. -/
  pqAccountRegistrations : Finset (Hash × Hash)
  freeRegPoolCount : Nat
  /-- `m_recentlyDeletedTransactions`: id and time of deletion. -/
  recentlyDeletedTransactions : List (Hash × Nat)
  validatedTransactions : Finset Hash

def Pool.empty : Pool where
  transactions := .empty
  spentKeyImages := ∅
  pqAccountRegistrations := ∅
  freeRegPoolCount := 0
  recentlyDeletedTransactions := []
  validatedTransactions := ∅

/-- What a pool holds, as a table. -/
abbrev View := Table Hash Transaction

def Pool.view (p : Pool) : View := fun id => (p.transactions.find id).map (·.tx)

/-- mirrors TransactionPool.cpp:411-417 -/
def Pool.haveTx (p : Pool) (id : Hash) : Bool := (p.transactions.find id).isSome

/-- Some transaction of the pool claims the key. -/
def claimed (claims : Finset (Hash × Hash)) (k : Hash) : Bool := decide (∃ x ∈ claims, x.1 = k)

/-- Claim keys for `id` one after the other. Only a transaction that comes with a
block may share a key, and never with itself. -/
def addClaims (id : Hash) (keptByBlock : Bool) : Finset (Hash × Hash) → List Hash → Bool × Finset (Hash × Hash)
  | claims, [] => (true, claims)
  | claims, k :: ks =>
    if ¬ (keptByBlock ∨ ¬ claimed claims k) then (false, claims)
    else if (k, id) ∈ claims then (false, claims)
    else addClaims id keptByBlock (insert (k, id) claims) ks

/-- Give keys back one after the other, up to the first that is not held. -/
def removeClaims (id : Hash) : Finset (Hash × Hash) → List Hash → Bool × Finset (Hash × Hash)
  | claims, [] => (true, claims)
  | claims, k :: ks => if (k, id) ∉ claims then (false, claims) else removeClaims id (claims.erase (k, id)) ks

/-- mirrors TransactionPool.cpp:786-832 -/
def Pool.addTransactionInputs (P : Primitives) (p : Pool) (id : Hash) (tx : Transaction) (keptByBlock : Bool) :
    Bool × Pool :=
  match addClaims id keptByBlock p.spentKeyImages (spendImages P tx) with
  | (false, images) => (false, { p with spentKeyImages := images })
  | (true, images) =>
    match addClaims id keptByBlock p.pqAccountRegistrations (getPqAccountRegistrationId P tx).toList with
    | (false, accounts) => (false, { p with spentKeyImages := images, pqAccountRegistrations := accounts })
    | (true, accounts) =>
      (true, { p with
        spentKeyImages := images
        pqAccountRegistrations := accounts
        freeRegPoolCount := if isFreeReg tx then p.freeRegPoolCount + 1 else p.freeRegPoolCount })

/-- mirrors TransactionPool.cpp:729-783 -/
def Pool.removeTransactionInputs (P : Primitives) (p : Pool) (id : Hash) (tx : Transaction) : Pool :=
  match removeClaims id p.spentKeyImages (spendImages P tx) with
  | (false, images) => { p with spentKeyImages := images }
  | (true, images) =>
    match removeClaims id p.pqAccountRegistrations (getPqAccountRegistrationId P tx).toList with
    | (false, accounts) => { p with spentKeyImages := images, pqAccountRegistrations := accounts }
    | (true, accounts) =>
      { p with
        spentKeyImages := images
        pqAccountRegistrations := accounts
        freeRegPoolCount := if isFreeReg tx then p.freeRegPoolCount - 1 else p.freeRegPoolCount }

/-- mirrors TransactionPool.cpp:718-727 -/
def Pool.removeTransaction (P : Primitives) (p : Pool) (d : TransactionDetails) : Pool :=
  let p := p.removeTransactionInputs P d.id d.tx
  { p with
    transactions := p.transactions.erase d.id
    validatedTransactions := p.validatedTransactions.erase d.id }

/-- mirrors TransactionPool.cpp:835-844 -/
def Pool.haveSpentInputs (P : Primitives) (p : Pool) (tx : Transaction) : Bool :=
  (spendImages P tx).any (claimed p.spentKeyImages)

/-- mirrors TransactionPool.cpp:846-850 -/
def Pool.havePqAccountRegistration (P : Primitives) (p : Pool) (tx : Transaction) : Bool :=
  (getPqAccountRegistrationId P tx).any (claimed p.pqAccountRegistrations)

/-- `sizeLimit` is the current cumulative block size limit.
mirrors Blockchain.cpp:168-176 -/
def checkTransactionSize (sizeLimit blobSize : Nat) : Bool := decide (¬ blobSize > sizeLimit - minerTxBlobReservedSize)

/-- A transfer, whose input value is chain state. -/
def pqOnlyInputs (tx : Transaction) : Bool := decide (tx.version ≥ transactionVersion1) && isPqTransfer tx.txType

/-- The fee an entry is filed under; `none` when the accounting fails. A transfer
whose inputs did not check has fee 0. -/
def poolFee (db : Db) (tx : Transaction) (inputsValid : Bool) : Option UInt64 :=
  if pqOnlyInputs tx then (if inputsValid then getPqTransactionFee db tx else some 0)
  else some (getInputAmount tx - getOutputAmount tx)

/-- The return value and the pool. A failure of `addTransactionInputs` is reported
after the transaction has been filed.
mirrors TransactionPool.cpp:152-284 -/
def addTx (E : Env) (db : Db) (sizeLimit now : Nat) (p : Pool) (tx : Transaction) (id : Hash) (blobSize : Nat)
    (keptByBlock : Bool) : Bool × Pool :=
  if ¬ checkInputsTypesSupported tx.toTransactionPrefix then (false, p)
  else if ¬ pqOnlyInputs tx ∧ getOutputAmount tx > getInputAmount tx then (false, p)
  else if ¬ keptByBlock ∧ p.haveSpentInputs E.P tx then (false, p)
  else if ¬ keptByBlock ∧ p.havePqAccountRegistration E.P tx then (false, p)
  else if ¬ keptByBlock ∧ isFreeReg tx ∧ p.freeRegPoolCount ≥ freeRegPoolLimit then (false, p)
  else
    let checked := checkTransactionInputsMaxUsed E db tx .clear
    if ¬ checked.1 ∧ ¬ keptByBlock then (false, p)
    else
      match poolFee db tx checked.1 with
      | none => (false, p)
      | some fee =>
        if ¬ keptByBlock ∧ ¬ checkTransactionSize sizeLimit blobSize then (false, p)
        else if ¬ keptByBlock ∧ (p.recentlyDeletedTransactions.lookup id).isSome then (true, p)
        else
          let txd : TransactionDetails :=
            { id := id
              tx := tx
              blobSize := blobSize
              fee := fee
              keptByBlock := keptByBlock
              receiveTime := now
              maxUsedBlock := if checked.1 then checked.2 else .clear
              lastFailedBlock := .clear }
          match p.transactions.insert transactionPriority txd with
          | none => (false, p)
          | some transactions =>
            { p with transactions := transactions }.addTransactionInputs E.P id tx keptByBlock

/-- mirrors TransactionPool.cpp:294-309 -/
def takeTx (P : Primitives) (p : Pool) (id : Hash) : Option (Transaction × Pool) :=
  (p.transactions.find id).map fun txd => (txd.tx, p.removeTransaction P txd)

/-! ## Expiry -/

/-- mirrors TransactionPool.cpp:640-648 -/
def isAccountAlreadyRegisteredOnChain (P : Primitives) (db : Db) (tx : Transaction) : Bool :=
  match getPqAccountRegistrationId P tx with
  | none => false
  | some accountId => (db.getPqAccountNumber accountId).isSome

/-- mirrors TransactionPool.cpp:656-677 -/
def removeStaleAccountRegistrations (P : Primitives) (db : Db) (p : Pool) : Pool :=
  (p.transactions.entries.filter fun d => isAccountAlreadyRegisteredOnChain P db d.tx).foldl
    (fun p d => p.removeTransaction P d) p

/-- A deletion that is already remembered keeps its time. -/
def rememberDeleted (now : Nat) (deleted : List (Hash × Nat)) (id : Hash) : List (Hash × Nat) :=
  if (deleted.lookup id).isSome then deleted else (id, now) :: deleted

/-- mirrors TransactionPool.cpp:680-716 -/
def removeExpiredTransactions (P : Primitives) (now : Nat) (p : Pool) : Pool :=
  let p := { p with
    recentlyDeletedTransactions := p.recentlyDeletedTransactions.filter fun x =>
      ¬ now - x.2 > numberOfPeriodsToForgetTxDeletedFromPool * mempoolTxLiveTime }
  (p.transactions.entries.filter fun d =>
      now - d.receiveTime > (if d.keptByBlock then mempoolTxFromAltBlockLiveTime else mempoolTxLiveTime)).foldl
    (fun p d => { p with
        recentlyDeletedTransactions := rememberDeleted now p.recentlyDeletedTransactions d.id }.removeTransaction P d)
    p

/-! ## Block templates -/

/-- mirrors TransactionPool.cpp:68-129 -/
structure BlockTemplate where
  keyImages : List Hash
  pqAccountRegistrations : List Hash
  freeRegCount : Nat
  txHashes : List Hash

def BlockTemplate.empty : BlockTemplate := ⟨[], [], 0, []⟩

/-- mirrors TransactionPool.cpp:103-122 -/
def BlockTemplate.canAdd (P : Primitives) (t : BlockTemplate) (tx : Transaction) : Bool :=
  !(spendImages P tx).any (· ∈ t.keyImages) &&
    !(getPqAccountRegistrationId P tx).any (· ∈ t.pqAccountRegistrations) &&
    !(isFreeReg tx && decide (t.freeRegCount ≥ freeRegPerBlock))

/-- mirrors TransactionPool.cpp:71-95 -/
def BlockTemplate.addTransaction (P : Primitives) (t : BlockTemplate) (txid : Hash) (tx : Transaction) :
    Option BlockTemplate :=
  if ¬ t.canAdd P tx then none
  else
    some { keyImages := t.keyImages ++ spendImages P tx
           pqAccountRegistrations := t.pqAccountRegistrations ++ (getPqAccountRegistrationId P tx).toList
           freeRegCount := if isFreeReg tx then t.freeRegCount + 1 else t.freeRegCount
           txHashes := t.txHashes ++ [txid] }

/-- Only transactions of other types than transfers pay by difference, and inputs
of those carry nothing.
mirrors Core.cpp:308-348 -/
def checkTxFee (E : Env) (tx : Transaction) (height : Nat) : Bool :=
  if pqOnlyInputs tx then true
  else if getOutputAmount tx > getInputAmount tx then false
  else
    let fee := getInputAmount tx - getOutputAmount tx
    if isFreeReg tx ∧ fee = 0 then true
    else if E.checkpoints.isInCheckpointZone height then true
    else decide (¬ fee.toNat < pqTxFeeFloor minimumFee tx.extra.length)

/-- A transfer type that is not accepted at the next height. -/
def wrongEra (E : Env) (db : Db) (tx : Transaction) : Bool :=
  decide (tx.version = transactionVersion1) && isPqTransfer tx.txType &&
    !E.currency.isPqTransferTypeAllowedAt tx.txType db.getChainHeight

/-- Readiness through the set of validated ids: an id that is in it is not checked
again. -/
def readyThroughCache (E : Env) (db : Db) (p : Pool) (txd : TransactionDetails) :
    Bool × TransactionCheckInfo × Finset Hash :=
  if txd.id ∈ p.validatedTransactions then (true, txd.toTransactionCheckInfo, p.validatedTransactions)
  else
    match isTransactionReadyToGo E db txd.tx txd.toTransactionCheckInfo with
    | (true, info) => (true, info, insert txd.id p.validatedTransactions)
    | (false, info) => (false, info, p.validatedTransactions)

structure TemplateScan where
  pool : Pool
  template : BlockTemplate
  totalSize : Nat
  fee : UInt64

/-- Replace the cached blocks of an entry. -/
def setCheckInfo (info : TransactionCheckInfo) (d : TransactionDetails) : TransactionDetails :=
  { d with toTransactionCheckInfo := info }

/-- One turn of the loop over the fee index.
mirrors TransactionPool.cpp:483-538 -/
def fillTurn (E : Env) (db : Db) (medianSize maxTotalSize : Nat) (s : TemplateScan) (txd : TransactionDetails) :
    TemplateScan :=
  if wrongEra E db txd.tx then s
  else if (if txd.fee = 0 then medianSize else maxTotalSize) < s.totalSize + txd.blobSize then s
  else if ¬ checkTxFee E txd.tx db.getChainHeight then s
  else if isAccountAlreadyRegisteredOnChain E.P db txd.tx then s
  else
    let (ready, info, validated) := readyThroughCache E db s.pool txd
    let pool := { s.pool with
      transactions := s.pool.transactions.modify txd.id (setCheckInfo info) (fun _ => rfl)
      validatedTransactions := validated }
    match (if ready then s.template.addTransaction E.P txd.id txd.tx else none) with
    | none => { s with pool := pool }
    | some template =>
      { pool := pool, template := template, totalSize := s.totalSize + txd.blobSize, fee := s.fee + txd.fee }

/-- The hashes for the block, its size and fees, and the pool with its answers
updated. The reserve is subtracted in machine words.
mirrors TransactionPool.cpp:471-542 -/
def fillBlockTemplate (E : Env) (db : Db) (p : Pool) (medianSize maxCumulativeSize : Nat) : TemplateScan :=
  let maxTotalSize := (min (125 * medianSize / 100) maxCumulativeSize + 2 ^ 64 - minerTxBlobReservedSize) % 2 ^ 64
  p.transactions.entries.foldl (fillTurn E db medianSize maxTotalSize)
    { pool := p, template := .empty, totalSize := 0, fee := 0 }

/-- The set of validated ids after `get_difference`, which does not keep the cached
blocks of the entries it looks at.
mirrors TransactionPool.cpp:356-391 -/
def getDifference (E : Env) (db : Db) (p : Pool) : Pool :=
  { p with
    validatedTransactions := p.transactions.entries.foldl
      (fun validated txd =>
        if wrongEra E db txd.tx then validated
        else (readyThroughCache E db { p with validatedTransactions := validated } txd).2.2)
      p.validatedTransactions }

/-! ## What the pool holds -/

variable {p : Pool} {id : Hash}

theorem view_eq_some : p.view id = some tx ↔ ∃ d ∈ p.transactions.entries, d.id = id ∧ d.tx = tx := by
  simp only [Pool.view, Option.map_eq_some_iff, MultiIndex.find_eq_some]
  constructor
  · rintro ⟨d, ⟨hd, hid⟩, htx⟩
    exact ⟨d, hd, hid, htx⟩
  · rintro ⟨d, hd, hid, htx⟩
    exact ⟨d, ⟨hd, hid⟩, htx⟩

@[simp] theorem view_empty (id : Hash) : Pool.empty.view id = none := rfl

theorem addTransactionInputs_frame (P : Primitives) (p : Pool) (id : Hash) (tx : Transaction) (kept : Bool) :
    (p.addTransactionInputs P id tx kept).2.transactions = p.transactions ∧
      (p.addTransactionInputs P id tx kept).2.validatedTransactions = p.validatedTransactions := by
  unfold Pool.addTransactionInputs
  split
  · exact ⟨rfl, rfl⟩
  · split
    · exact ⟨rfl, rfl⟩
    · exact ⟨rfl, rfl⟩

theorem removeTransactionInputs_frame (P : Primitives) (p : Pool) (id : Hash) (tx : Transaction) :
    (p.removeTransactionInputs P id tx).transactions = p.transactions ∧
      (p.removeTransactionInputs P id tx).validatedTransactions = p.validatedTransactions := by
  unfold Pool.removeTransactionInputs
  split
  · exact ⟨rfl, rfl⟩
  · split
    · exact ⟨rfl, rfl⟩
    · exact ⟨rfl, rfl⟩

theorem removeTransaction_transactions (P : Primitives) (p : Pool) (d : TransactionDetails) :
    (p.removeTransaction P d).transactions = p.transactions.erase d.id := by
  rw [Pool.removeTransaction, (removeTransactionInputs_frame P p d.id d.tx).1]

theorem removeTransaction_validated (P : Primitives) (p : Pool) (d : TransactionDetails) :
    (p.removeTransaction P d).validatedTransactions = p.validatedTransactions.erase d.id := by
  rw [Pool.removeTransaction, (removeTransactionInputs_frame P p d.id d.tx).2]

theorem removeTransaction_view (P : Primitives) (p : Pool) (d : TransactionDetails) :
    (p.removeTransaction P d).view = p.view.remove d.id := by
  ext1 k
  rw [Pool.view, removeTransaction_transactions, MultiIndex.find_erase, Table.remove_apply]
  split
  · rfl
  · rfl

/-- Nothing is held that was not held before. -/
def Sub (view view' : View) : Prop := ∀ h tx, view h = some tx → view' h = some tx

theorem Sub.refl (view : View) : Sub view view := fun _ _ h => h

theorem Sub.trans {view view' view'' : View} (h : Sub view view') (h' : Sub view' view'') : Sub view view'' :=
  fun k tx hk => h' k tx (h k tx hk)

theorem Sub.removeAll (view : View) (hs : List Hash) : Sub (view.removeAll hs) view := by
  intro h tx hv
  rw [Table.removeAll_apply] at hv
  split at hv
  · cases hv
  · exact hv

theorem removeTransaction_sub (P : Primitives) (p : Pool) (d : TransactionDetails) :
    Sub (p.removeTransaction P d).view p.view ∧
      (p.removeTransaction P d).validatedTransactions ⊆ p.validatedTransactions := by
  refine ⟨?_, ?_⟩
  · rw [removeTransaction_view]
    intro k tx hk
    rw [Table.remove_apply] at hk
    split at hk
    · cases hk
    · exact hk
  · rw [removeTransaction_validated]
    exact Finset.erase_subset _ _

/-- Both sweeps of `on_idle` only remove transactions. -/
theorem removeStaleAccountRegistrations_sub (P : Primitives) (db : Db) (p : Pool) :
    Sub (removeStaleAccountRegistrations P db p).view p.view ∧
      (removeStaleAccountRegistrations P db p).validatedTransactions ⊆ p.validatedTransactions := by
  unfold removeStaleAccountRegistrations
  generalize p.transactions.entries.filter _ = l
  induction l generalizing p with
  | nil => exact ⟨.refl _, subset_refl _⟩
  | cons d l ih =>
    obtain ⟨h1, h2⟩ := removeTransaction_sub P p d
    obtain ⟨h3, h4⟩ := ih (p.removeTransaction P d)
    exact ⟨h3.trans h1, h4.trans h2⟩

theorem removeExpiredTransactions_sub (P : Primitives) (now : Nat) (p : Pool) :
    Sub (removeExpiredTransactions P now p).view p.view ∧
      (removeExpiredTransactions P now p).validatedTransactions ⊆ p.validatedTransactions := by
  refine List.foldlRecOn (motive := fun p' : Pool => Sub p'.view p.view ∧ p'.validatedTransactions ⊆ p.validatedTransactions)
    _ _ ⟨.refl _, subset_refl _⟩ ?_
  intro p' ⟨hview, hvalidated⟩ d _
  obtain ⟨h1, h2⟩ := removeTransaction_sub P { p' with
    recentlyDeletedTransactions := rememberDeleted now p'.recentlyDeletedTransactions d.id } d
  exact ⟨h1.trans hview, h2.trans hvalidated⟩

theorem setCheckInfo_id (info : TransactionCheckInfo) (d : TransactionDetails) : (setCheckInfo info d).id = d.id := rfl

/-- New cached blocks for an entry change no transaction. -/
theorem view_setCheckInfo (p : Pool) (id : Hash) (info : TransactionCheckInfo) (validated : Finset Hash) :
    { p with transactions := p.transactions.modify id (setCheckInfo info) (setCheckInfo_id info)
             validatedTransactions := validated }.view = p.view := by
  ext1 k
  simp only [Pool.view, MultiIndex.find_modify, Option.map_map]
  congr 1
  funext d
  simp only [Function.comp_apply]
  split
  · rfl
  · rfl

/-- A turn of the loop passes an entry over, or looks at its readiness and adds it to
the template if the template admits it. -/
inductive FillTurn (E : Env) (db : Db) (s : TemplateScan) (txd : TransactionDetails) : TemplateScan → Prop where
  | passed : FillTurn E db s txd s
  | looked {s' : TemplateScan} {ready : Bool} {info : TransactionCheckInfo} {validated : Finset Hash} :
      isAccountAlreadyRegisteredOnChain E.P db txd.tx = false →
      readyThroughCache E db s.pool txd = (ready, info, validated) → s'.pool = { s.pool with
        transactions := s.pool.transactions.modify txd.id (setCheckInfo info) (setCheckInfo_id info)
        validatedTransactions := validated } → (s'.template = s.template ∧ s'.totalSize = s.totalSize ∧ s'.fee = s.fee ∨
        ready = true ∧ s.template.addTransaction E.P txd.id txd.tx = some s'.template ∧
          s'.totalSize = s.totalSize + txd.blobSize ∧ s'.fee = s.fee + txd.fee) → FillTurn E db s txd s'

theorem fillTurn_cases (E : Env) (db : Db) (medianSize maxTotalSize : Nat) (s : TemplateScan)
    (txd : TransactionDetails) : FillTurn E db s txd (fillTurn E db medianSize maxTotalSize s txd) := by
  generalize hr : readyThroughCache E db s.pool txd = r
  obtain ⟨ready, info, validated⟩ := r
  unfold fillTurn
  by_cases hera : wrongEra E db txd.tx = true
  · rw [if_pos hera]; exact .passed
  rw [if_neg hera]
  by_cases hsize : (if txd.fee = 0 then medianSize else maxTotalSize) < s.totalSize + txd.blobSize
  · rw [if_pos hsize]; exact .passed
  rw [if_neg hsize]
  by_cases hfee : ¬ checkTxFee E txd.tx db.getChainHeight = true
  · rw [if_pos hfee]; exact .passed
  rw [if_neg hfee]
  by_cases hreg : isAccountAlreadyRegisteredOnChain E.P db txd.tx = true
  · rw [if_pos hreg]; exact .passed
  rw [if_neg hreg]
  simp only [hr]
  cases ready with
  | false => exact .looked (by simpa using hreg) hr rfl (.inl ⟨rfl, rfl, rfl⟩)
  | true =>
    simp only [if_true]
    cases hadd : s.template.addTransaction E.P txd.id txd.tx with
    | none => exact .looked (by simpa using hreg) hr rfl (.inl ⟨rfl, rfl, rfl⟩)
    | some t => exact .looked (by simpa using hreg) hr rfl (.inr ⟨rfl, hadd, rfl, rfl⟩)

theorem FillTurn.view {s s' : TemplateScan} {txd : TransactionDetails} (h : FillTurn E db s txd s') :
    s'.pool.view = s.pool.view := by
  cases h with
  | passed => rfl
  | looked _ _ hpool _ =>
    rw [hpool]
    exact view_setCheckInfo _ _ _ _

/-- Filling a template changes no transaction. -/
theorem fillBlockTemplate_view (E : Env) (db : Db) (p : Pool) (medianSize maxCumulativeSize : Nat) :
    (fillBlockTemplate E db p medianSize maxCumulativeSize).pool.view = p.view :=
  List.foldlRecOn (motive := fun s : TemplateScan => s.pool.view = p.view) _ _ rfl fun s hs d _ =>
    (fillTurn_cases E db medianSize _ s d).view.trans hs

variable {P : Primitives}

theorem takeTx_view {p' : Pool} (h : takeTx P p id = some (tx, p')) :
    p.view id = some tx ∧ p'.view = p.view.remove id ∧ p'.validatedTransactions = p.validatedTransactions.erase id := by
  unfold takeTx at h
  obtain ⟨d, hd, he⟩ := Option.map_eq_some_iff.mp h
  obtain ⟨rfl, rfl⟩ := Prod.mk.inj he
  have hid : d.id = id := (MultiIndex.find_eq_some.mp hd).2
  refine ⟨by rw [Pool.view, hd]; rfl, ?_, ?_⟩
  · rw [removeTransaction_view, hid]
  · rw [removeTransaction_validated, hid]

theorem takeTx_eq_none : takeTx P p id = none ↔ p.view id = none := by
  simp [takeTx, Pool.view]

/-- A filed entry is seen under its id. -/
theorem view_of_insert {P : Primitives} {txd : TransactionDetails} {c : MultiIndex TransactionDetails.id}
    (hc : p.transactions.insert transactionPriority txd = some c) (id : Hash) (tx : Transaction) (kept : Bool) :
    p.view txd.id = none ∧
      ({ p with transactions := c }.addTransactionInputs P id tx kept).2.view = p.view.put txd.id txd.tx := by
  have habsent := MultiIndex.insert_isSome.mp (Option.isSome_iff_exists.mpr ⟨c, hc⟩)
  refine ⟨by rw [Pool.view, habsent]; rfl, ?_⟩
  ext1 k
  rw [Pool.view, (addTransactionInputs_frame P { p with transactions := c } id tx kept).1,
    MultiIndex.find_insert hc, Table.put_apply]
  split
  · rfl
  · rfl

/-- What the pool asks of a transaction that comes with a block. -/
structure Admissible (tx : Transaction) : Prop where
  types : checkInputsTypesSupported tx.toTransactionPrefix = true
  amounts : pqOnlyInputs tx = true ∨ getOutputAmount tx ≤ getInputAmount tx

/-- What a transaction that comes on its own must show besides. -/
structure Relayable (E : Env) (db : Db) (p : Pool) (tx : Transaction) : Prop where
  unspent : p.haveSpentInputs E.P tx = false
  unregistered : p.havePqAccountRegistration E.P tx = false
  checked : (checkTransactionInputsMaxUsed E db tx .clear).1 = true

/-- What `add_tx` can do: nothing, or file the transaction under its id and enter it
into the indices. -/
inductive Added (E : Env) (db : Db) (p : Pool) (tx : Transaction) (id : Hash) (blobSize : Nat) (keptByBlock : Bool) :
    Bool × Pool → Prop where
  | refused : Added E db p tx id blobSize keptByBlock (false, p)
  | forgotten : Added E db p tx id blobSize keptByBlock (true, p)
  | filed {txd : TransactionDetails} {c : MultiIndex TransactionDetails.id} : Admissible tx →
      (keptByBlock = false → Relayable E db p tx) → txd.id = id → txd.tx = tx → txd.blobSize = blobSize →
      poolFee db tx (checkTransactionInputsMaxUsed E db tx .clear).1 = some txd.fee →
      p.transactions.insert transactionPriority txd = some c →
      Added E db p tx id blobSize keptByBlock ({ p with transactions := c }.addTransactionInputs E.P id tx keptByBlock)

theorem addTx_added (E : Env) (db : Db) (sizeLimit now : Nat) (p : Pool) (tx : Transaction) (id : Hash) (blobSize : Nat)
    (kept : Bool) : Added E db p tx id blobSize kept (addTx E db sizeLimit now p tx id blobSize kept) := by
  unfold addTx
  split; · exact .refused
  rename_i htypes
  split; · exact .refused
  rename_i hamount
  split; · exact .refused
  rename_i hunspent
  split; · exact .refused
  rename_i hunregistered
  split; · exact .refused
  dsimp only
  split; · exact .refused
  rename_i hchecked
  split; · exact .refused
  rename_i fee hfee
  split; · exact .refused
  split; · exact .forgotten
  split
  · exact .refused
  · rename_i c hc
    refine .filed ⟨by simpa using htypes, ?_⟩ ?_ rfl rfl rfl hfee hc
    · by_cases hpq : pqOnlyInputs tx = true
      · exact .inl hpq
      · exact .inr (UInt64.not_lt.mp fun hgt => hamount ⟨hpq, hgt⟩)
    · intro hkept
      subst hkept
      exact ⟨by simpa using hunspent, by simpa using hunregistered, by simpa using hchecked⟩

/-- What `add_tx` can do to what the pool holds. -/
theorem addTx_cases (E : Env) (db : Db) (sizeLimit now : Nat) (p : Pool) (tx : Transaction) (id : Hash)
    (blobSize : Nat) (kept : Bool) :
    (addTx E db sizeLimit now p tx id blobSize kept).2 = p ∨
      p.view id = none ∧ (addTx E db sizeLimit now p tx id blobSize kept).2.view = p.view.put id tx ∧
        (addTx E db sizeLimit now p tx id blobSize kept).2.validatedTransactions = p.validatedTransactions := by
  generalize hr : addTx E db sizeLimit now p tx id blobSize kept = r
  have h := addTx_added E db sizeLimit now p tx id blobSize kept
  rw [hr] at h
  cases h with
  | refused => exact .inl rfl
  | forgotten => exact .inl rfl
  | filed _ _ hid htx _ _ hc =>
    obtain ⟨habsent, hview⟩ := view_of_insert (P := E.P) hc id tx kept
    rw [hid] at habsent hview
    rw [htx] at hview
    exact .inr ⟨habsent, hview, (addTransactionInputs_frame E.P { p with transactions := _ } id tx kept).2⟩

theorem getOutputAmount_nil (h : tx.outputs = []) : getOutputAmount tx = 0 := by
  rw [getOutputAmount, h]
  rfl

theorem Gated.admissible (h : Gated P tx) : Admissible tx := by
  obtain ⟨kept, h⟩ := h
  unfold checkTxSemantic at h
  split at h
  · rename_i hv
    split at h
    · rename_i ht
      have hs := SemanticOk.of_ok (isOk_iff.mp h)
      refine ⟨?_, .inl (by simp [pqOnlyInputs, hv, ht])⟩
      unfold checkInputsTypesSupported
      rw [List.all_eq_true]
      intro t hmem
      obtain ⟨inp, rfl, -⟩ := hs.pq hmem
      simp [hv, ht]
    · split at h
      · rw [Bool.and_eq_true] at h
        have hshape := isOk_iff.mp h.1
        unfold checkFreeRegTransactionShape at hshape
        split at hshape; · cases hshape
        split at hshape; · cases hshape
        rename_i hsides
        simp only [not_or, not_not] at hsides
        refine ⟨?_, .inr ?_⟩
        · simp [checkInputsTypesSupported, hsides.1]
        · rw [getOutputAmount_nil hsides.2]
          exact UInt64.le_refl _
      · cases h
  · simp only [Bool.and_eq_true, decide_eq_true_eq] at h
    obtain ⟨⟨⟨⟨⟨⟨-, htypes⟩, -⟩, -⟩, hamount⟩, -⟩, -⟩ := h
    exact ⟨htypes, .inr hamount⟩

/-- A transfer whose inputs check has a fee. -/
theorem poolFee_isSome (maxUsed : BlockInfo) :
    (poolFee db tx (checkTransactionInputsMaxUsed E db tx maxUsed).1).isSome := by
  unfold poolFee
  split
  · rename_i hpq
    split
    · rename_i hvalid
      obtain ⟨m, hm⟩ := Option.isSome_iff_exists.mp (checkTransactionInputsMaxUsed_true hvalid)
      have htransfer : isPqTransfer tx.txType = true := by
        simp only [pqOnlyInputs, Bool.and_eq_true] at hpq
        exact hpq.2
      rcases (TxInputsOk.of_some hm).2 with ⟨fee, -, hok⟩ | ht | ht
      · rw [hok.fee]
        rfl
      · rw [ht] at htransfer
        exact absurd htransfer (by decide)
      · rw [ht] at htransfer
        exact absurd htransfer (by decide)
    · rfl
  · rfl

/-- For a transaction that comes with a block and passed the gate, `add_tx` comes
down to the insertion. -/
theorem addTx_kept {sizeLimit now : Nat} {blobSize : Nat} (h : Admissible tx) :
    ∃ txd : TransactionDetails, txd.id = id ∧ txd.tx = tx ∧ addTx E db sizeLimit now p tx id blobSize true =
        match p.transactions.insert transactionPriority txd with
        | none => (false, p)
        | some c => { p with transactions := c }.addTransactionInputs E.P id tx true := by
  have hamount : ¬ (¬ pqOnlyInputs tx = true ∧ getOutputAmount tx > getInputAmount tx) := by
    rintro ⟨hpq, hgt⟩
    rcases h.amounts with hp | hle
    · exact hpq hp
    · exact absurd hgt (UInt64.not_lt.mpr hle)
  obtain ⟨fee, hfee⟩ := Option.isSome_iff_exists.mp (@poolFee_isSome E db tx .clear)
  unfold addTx
  rw [if_neg (by simp [h.types]), if_neg hamount, if_neg (by simp), if_neg (by simp), if_neg (by simp)]
  dsimp only
  rw [if_neg (by simp), hfee]
  simp only [not_true_eq_false, false_and, if_false]
  exact ⟨_, rfl, rfl, rfl⟩

/-- Whatever it returns, the transaction is in the pool afterwards. -/
theorem addTx_kept_view {sizeLimit now : Nat} {blobSize : Nat} (h : Admissible tx) (habsent : p.view id = none) :
    (addTx E db sizeLimit now p tx id blobSize true).2.view = p.view.put id tx := by
  obtain ⟨txd, hid, htx, heq⟩ := @addTx_kept E db tx p id sizeLimit now blobSize h
  have hfind : p.transactions.find txd.id = none := by
    rw [hid]
    simpa [Pool.view] using habsent
  obtain ⟨c, hc⟩ := MultiIndex.insert_of_free transactionPriority hfind
  rw [heq, hc]
  simp only [(view_of_insert (P := E.P) hc id tx true).2, hid, htx]

end Discrete.L4
