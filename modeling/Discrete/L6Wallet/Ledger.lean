import Discrete.Core.Machine
import Discrete.Core.MultiIndex
import Discrete.L6Wallet.Sender

/-!
# The wallet's ledger (`WalletLedger.cpp`)

The outputs a wallet owns, found by scanning one transaction after another, and one
history row for each transaction that touched it. A transaction is seen at
`unconfirmedHeight` while it is in the pool and at its block's height once it is
mined; its effects are recorded at the first sight and promoted at the second, taken
back by `removeUnconfirmedTransaction` when it leaves the pool and by
`rollbackToHeight` when its block is detached.

The nullifier and txid indices are the keys of `MultiIndex`. What a transaction pays
to the wallet (`receipts`) and which nullifiers it reveals (`spentNullifiers`) do not
depend on what is recorded, so they are computed before the two loops that apply
them. Persistence is left out, and with it the one-shot migration of old files.

Of an output the ledger keeps the bucket it was received in, not the key: the sender
recovers the key from the bucket (`authFor`). `spendableInputs_open`: in every run in
which no coinbase pays a deposit key and the deposit indices stay below the
sentinels, the recovered key opens the commitment on the chain. A coinbase to a
deposit key is recorded in the primary bucket and its input cannot be signed
(`coinbase_deposit_unsignable`).
-/
namespace Discrete.L6
open List L1 L2 L3

/-- `WalletLedger::UNCONFIRMED_HEIGHT` -/
def unconfirmedHeight : UInt32 := 0xFFFFFFFF

/-- mirrors PqTransactionBuilder.h:65-73 -/
def pqDepositIndexForRoute (subaddrIndexT : UInt64) : UInt32 :=
  if subaddrIndexT = 0 then pqPrimaryDeposit
  else if subaddrIndexT > pqMaxDepositRoute then pqUnattributedDeposit
  else subaddrIndexT.toUInt32

/-- mirrors WalletLedger.h:52-70 -/
structure PqWalletOutput where
  txid : Hash
  outputIndex : UInt32
  amount : UInt64
  rho : Rho
  nullifier : Hash
  height : UInt32
  unlockHeight : UInt64
  spent : Bool := false
  spentHeight : UInt32 := 0
  spentTxid : Hash := nullHash
  depositIndex : UInt32 := pqPrimaryDeposit
  deriving DecidableEq

/-- mirrors WalletLedger.h:76-85 -/
structure PqWalletTransaction where
  txid : Hash
  height : UInt32
  timestamp : UInt64
  netAmount : Int64
  fee : UInt64
  outgoing : Bool
  coinbase : Bool
  paymentId : Hash
  deriving DecidableEq

/-- The keys and the deposit configuration. -/
structure LedgerKeys where
  viewSk : KemSecretKey
  spendPub : DsaPublicKey
  seedMaster : Option SeedMaster
  depositScheme : PqDepositScheme := .aggregatedMultikey
  depositCount : UInt32 := 0
  legacyTWindowMaxT : UInt32 := 0
  depositSpendPubs : List DsaPublicKey := []

abbrev OutputTable := MultiIndex PqWalletOutput.nullifier
abbrev HistoryTable := MultiIndex PqWalletTransaction.txid

structure Ledger where
  keys : LedgerKeys
  outputs : OutputTable
  history : HistoryTable
  lastScannedHeight : UInt32

/-! ## Deposit configuration -/

section
variable (W : WalletPrimitives)

/-- mirrors WalletLedger.cpp:71-82 -/
def LedgerKeys.ensureDepositKeys (K : LedgerKeys) (count : UInt32) : LedgerKeys :=
  if K.depositScheme ≠ .aggregatedMultikey then K
  else
    match K.seedMaster with
    | none => { K with depositSpendPubs := [] }
    | some seedMaster =>
      let cached := K.depositSpendPubs.length
      { K with depositSpendPubs := K.depositSpendPubs ++ (List.range' cached (count.toNat - cached)).map fun i =>
          (deriveDepositSpendKeys W seedMaster (UInt32.ofNat i)).1 }

/-- Keys cached for another scheme are stale. -/
def LedgerKeys.withConfig (K : LedgerKeys) (scheme : PqDepositScheme) (depositCount : UInt32) : LedgerKeys :=
  { K with
    depositSpendPubs := if scheme ≠ K.depositScheme then [] else K.depositSpendPubs
    depositScheme := scheme
    depositCount := depositCount }

/-- mirrors WalletLedger.cpp:84-109 -/
def Ledger.setDepositConfig (L : Ledger) (scheme : PqDepositScheme) (depositCount : UInt32) : Ledger :=
  { L with keys := (L.keys.withConfig scheme depositCount).ensureDepositKeys W depositCount }

/-! ## What a transaction says to the wallet -/

/-- mirrors WalletLedger.cpp:127-142 -/
def spentNullifiers (tx : TransactionPrefix) : List Hash :=
  (tx.pqInputs.filter pqInputFieldsValid).map (pqNullifier W.toPrimitives)

/-- An output recognised as the wallet's own. `owner` is the spend key it commits to. -/
structure Receipt where
  outputIndex : UInt32
  amount : UInt64
  rho : Rho
  unlockHeight : UInt64
  owner : DsaPublicKey
  depositIndex : UInt32

def Receipt.nullifier (r : Receipt) (txid : Hash) : Hash :=
  L2.nullifier W.toPrimitives r.owner r.rho txid r.outputIndex

def Receipt.record (r : Receipt) (txid : Hash) (height : UInt32) : PqWalletOutput where
  txid := txid
  outputIndex := r.outputIndex
  amount := r.amount
  rho := r.rho
  nullifier := r.nullifier W txid
  height := height
  unlockHeight := r.unlockHeight
  depositIndex := r.depositIndex

/-- A `PqOutput` whose fields have the right sizes. -/
def scanOutput (i : UInt32) (out : TransactionOutput) : Option PqScanOutput :=
  match out.target with
  | .pq po =>
    if pqOutputFieldsValid po then some ⟨i, out.amount, toArray _ po.kemCt, po.encPayload, po.spendCommit⟩
    else none
  | _ => none

def LedgerKeys.scanKeys (K : LedgerKeys) : PqScanKeys := ⟨K.viewSk, K.spendPub⟩

/-- mirrors WalletLedger.cpp:200-253 -/
def recognizePq (K : LedgerKeys) (inputsHash : Hash) (mode : PqScanMode) (i : UInt32) (out : TransactionOutput) :
    Option Receipt :=
  (scanOutput i out).bind fun so =>
    match K.depositScheme with
    | .singleKeyIndex =>
      (scanPqOutputWithLegacyTWindow W K.scanKeys inputsHash so K.legacyTWindowMaxT.toUInt64 mode).map fun owned =>
        ⟨i, owned.amount, owned.rho, out.unlockHeight, K.spendPub, pqDepositIndexForRoute owned.subaddrIndexT⟩
    | .aggregatedMultikey =>
      match scanPqOutput W K.scanKeys inputsHash so mode with
      | some owned => some ⟨i, owned.amount, owned.rho, out.unlockHeight, K.spendPub, pqPrimaryDeposit⟩
      | none =>
        if K.depositCount = 0 then none
        else
          (scanPqOutputAggregate W K.viewSk K.depositSpendPubs inputsHash so mode).bind fun agg =>
            K.depositSpendPubs[agg.spendPubIndex]?.map fun owner =>
              ⟨i, agg.record.amount, agg.record.rho, out.unlockHeight, owner, UInt32.ofNat agg.spendPubIndex⟩

/-- The coinbase output at `i` commits to `spendPub`. -/
def OpensCoinbase (height i : UInt32) (co : CoinbaseOutput) (spendPub : DsaPublicKey) : Prop :=
  spendCommit W.toPrimitives spendPub (coinbaseRho W.toPrimitives spendPub height i) = co.spendCommit

instance (height i : UInt32) (co : CoinbaseOutput) (spendPub : DsaPublicKey) :
    Decidable (OpensCoinbase W height i co spendPub) :=
  inferInstanceAs (Decidable (_ = _))

/-- mirrors WalletLedger.cpp:310-333 -/
def coinbaseOwner (K : LedgerKeys) (height i : UInt32) (co : CoinbaseOutput) : Option DsaPublicKey :=
  if OpensCoinbase W height i co K.spendPub then some K.spendPub
  else if K.depositScheme = .aggregatedMultikey then
    K.depositSpendPubs.find? fun p => decide (OpensCoinbase W height i co p)
  else none

/-- Whoever owns it, the output goes to the primary bucket.
mirrors WalletLedger.cpp:303-365 -/
def recognizeCoinbase (K : LedgerKeys) (height : UInt32) (i : UInt32) (out : TransactionOutput) : Option Receipt :=
  match out.target with
  | .coinbase co =>
    (coinbaseOwner W K height i co).map fun owner =>
      ⟨i, out.amount, coinbaseRho W.toPrimitives owner height i, out.unlockHeight, owner, pqPrimaryDeposit⟩
  | _ => none

def scanModeOf (tx : TransactionPrefix) : PqScanMode := if tx.txType = txPqV2 then .strictV2 else .compatible

def indexedOutputs (tx : TransactionPrefix) : List (TransactionOutput × UInt32) :=
  tx.outputs.zipIdx.map fun x => (x.1, UInt32.ofNat x.2)

/-- The two recognition loops, in their order. -/
def receipts (K : LedgerKeys) (tx : TransactionPrefix) (height : UInt32) : List Receipt :=
  let inputsHash := pqTransactionInputsHash W tx
  (indexedOutputs tx).filterMap (fun x => recognizePq W K inputsHash (scanModeOf tx) x.2 x.1) ++
    if tx.txType = txCoinbase then (indexedOutputs tx).filterMap fun x => recognizeCoinbase W K height x.2 x.1
    else []

/-- Every output of a valid size, for the fee. -/
def allOutputsSum (tx : TransactionPrefix) : UInt64 :=
  (tx.outputs.filterMap fun out => (scanOutput 0 out).map PqScanOutput.amount).sum

end

/-! ## Scanning a transaction -/

/-- The ledger's outputs while a transaction is scanned, and the sums for its row. -/
structure Scan where
  outputs : OutputTable
  debited : UInt64 := 0
  credited : UInt64 := 0
  affected : Bool := false

/-- A pool sighting that a block now confirms. -/
def Promotes (seen height : UInt32) : Prop := seen = unconfirmedHeight ∧ height ≠ unconfirmedHeight

instance (seen height : UInt32) : Decidable (Promotes seen height) := inferInstanceAs (Decidable (_ ∧ _))

/-- mirrors WalletLedger.cpp:146-172 -/
def PqWalletOutput.spendBy (txid : Hash) (height : UInt32) (o : PqWalletOutput) : PqWalletOutput :=
  if ¬ o.spent then { o with spent := true, spentHeight := height, spentTxid := txid }
  else if Promotes o.spentHeight height then { o with spentHeight := height, spentTxid := txid }
  else o

/-- What the spend adds to the row: nothing when the spender itself was seen before. -/
def PqWalletOutput.debit (txid : Hash) (height : UInt32) (o : PqWalletOutput) : UInt64 :=
  if ¬ o.spent then o.amount
  else if Promotes o.spentHeight height ∧ o.spentTxid ≠ txid then o.amount
  else 0

theorem PqWalletOutput.nullifier_spendBy (txid : Hash) (height : UInt32) (o : PqWalletOutput) :
    (o.spendBy txid height).nullifier = o.nullifier := by
  unfold spendBy
  split
  · rfl
  · split <;> rfl

def Scan.spend (txid : Hash) (height : UInt32) (s : Scan) (nf : Hash) : Scan :=
  match s.outputs.find nf with
  | none => s
  | some o =>
    { s with
      outputs := s.outputs.modify nf (PqWalletOutput.spendBy txid height) (PqWalletOutput.nullifier_spendBy txid height)
      debited := s.debited + o.debit txid height
      affected := s.affected || !o.spent || decide (Promotes o.spentHeight height) }

def PqWalletOutput.confirmAt (height : UInt32) (unlockHeight : UInt64) (o : PqWalletOutput) : PqWalletOutput :=
  { o with height := height, unlockHeight := unlockHeight }

theorem PqWalletOutput.nullifier_confirmAt (height : UInt32) (unlockHeight : UInt64) (o : PqWalletOutput) :
    (o.confirmAt height unlockHeight).nullifier = o.nullifier := rfl

/-- mirrors WalletLedger.cpp:262-294, 335-364 -/
def Scan.receive (W : WalletPrimitives) (txid : Hash) (height : UInt32) (s : Scan) (r : Receipt) : Scan :=
  match s.outputs.find (r.nullifier W txid) with
  | some o =>
    if Promotes o.height height then
      { s with
        outputs := s.outputs.modify (r.nullifier W txid) (PqWalletOutput.confirmAt height r.unlockHeight)
          (PqWalletOutput.nullifier_confirmAt height r.unlockHeight)
        affected := true }
    else s
  | none =>
    { s with
      outputs := s.outputs.push (r.record W txid height)
      credited := s.credited + r.amount
      affected := true }

/-- The row of a transaction seen for the first time.
mirrors WalletLedger.cpp:376-394 -/
def newRow (tx : TransactionPrefix) (txid : Hash) (height : UInt32) (timestamp debited credited : UInt64) :
    PqWalletTransaction where
  txid := txid
  height := height
  timestamp := timestamp
  netAmount := if debited > 0 then credited.toInt64 - debited.toInt64 else credited.toInt64
  fee := if debited > 0 ∧ debited ≥ allOutputsSum tx then debited - allOutputsSum tx else 0
  outgoing := decide (debited > 0)
  coinbase := decide (tx.txType = txCoinbase)
  paymentId := (getPaymentIdFromTxExtra tx.extra).getD nullHash

/-- mirrors WalletLedger.cpp:367-395 -/
def updateHistory (history : HistoryTable) (tx : TransactionPrefix) (txid : Hash) (height : UInt32)
    (timestamp debited credited : UInt64) : HistoryTable × Bool :=
  match history.find txid with
  | some h =>
    if Promotes h.height height then
      (history.modify txid (fun h => { h with height := height, timestamp := timestamp }) (fun _ => rfl), true)
    else (history, false)
  | none =>
    if debited > 0 ∨ credited > 0 then (history.push (newRow tx txid height timestamp debited credited), true)
    else (history, false)

section
variable (W : WalletPrimitives)

/-- The keys as the recognition loops have them: they extend the cache on first need. -/
def Ledger.scanningKeys (L : Ledger) : LedgerKeys := L.keys.ensureDepositKeys W L.keys.depositCount

def Ledger.scanTransaction (L : Ledger) (tx : TransactionPrefix) (txid : Hash) (height : UInt32) : Scan :=
  (receipts W (L.scanningKeys W) tx height).foldl (Scan.receive W txid height)
    ((spentNullifiers W tx).foldl (Scan.spend txid height) ⟨L.outputs, 0, 0, false⟩)

/-- mirrors WalletLedger.cpp:111-398 -/
def Ledger.processTransaction (L : Ledger) (tx : TransactionPrefix) (txid : Hash) (height : UInt32)
    (timestamp : UInt64) : Ledger × Bool :=
  if tx.version < transactionVersion1 then (L, false)
  else
    let s := L.scanTransaction W tx txid height
    let h := updateHistory L.history tx txid height timestamp s.debited s.credited
    ({ L with outputs := s.outputs, history := h.1 }, s.affected || h.2)

end

/-! ## Undoing -/

def PqWalletOutput.unspend (o : PqWalletOutput) : PqWalletOutput :=
  { o with spent := false, spentHeight := 0, spentTxid := nullHash }

/-- Seen in a block at `h` or above. -/
def Orphaned (h seen : UInt32) : Prop := seen ≥ h ∧ seen ≠ unconfirmedHeight

instance (h seen : UInt32) : Decidable (Orphaned h seen) := inferInstanceAs (Decidable (_ ∧ _))

def PqWalletOutput.rollback (h : UInt32) (o : PqWalletOutput) : Option PqWalletOutput :=
  if Orphaned h o.height then none
  else some (if o.spent ∧ Orphaned h o.spentHeight then o.unspend else o)

theorem PqWalletOutput.nullifier_rollback {h : UInt32} {o o' : PqWalletOutput} (e : o.rollback h = some o') :
    o'.nullifier = o.nullifier := by
  unfold rollback at e
  split at e
  · cases e
  · rw [Option.some.injEq] at e
    subst e
    split <;> rfl

def PqWalletTransaction.rollback (h : UInt32) (t : PqWalletTransaction) : Option PqWalletTransaction :=
  if Orphaned h t.height then none else some t

theorem PqWalletTransaction.rollback_eq {h : UInt32} {t t' : PqWalletTransaction} (e : t.rollback h = some t') :
    t' = t := by
  unfold rollback at e
  split at e
  · cases e
  · exact (Option.some.inj e).symm

/-- mirrors WalletLedger.cpp:577-624 -/
def Ledger.rollbackToHeight (L : Ledger) (h : UInt32) : Ledger :=
  { L with
    outputs := L.outputs.filterMap (PqWalletOutput.rollback h) PqWalletOutput.nullifier_rollback
    history := L.history.filterMap (PqWalletTransaction.rollback h) fun e => by
      rw [PqWalletTransaction.rollback_eq e]
    lastScannedHeight := if L.lastScannedHeight ≥ h ∧ h > 0 then h - 1 else L.lastScannedHeight }

/-- The effects of a pool transaction on an output. -/
def PqWalletOutput.removeUnconfirmed (txid : Hash) (o : PqWalletOutput) : Option PqWalletOutput :=
  if o.height = unconfirmedHeight ∧ o.txid = txid then none
  else some (if o.spent ∧ o.spentHeight = unconfirmedHeight ∧ o.spentTxid = txid then o.unspend else o)

theorem PqWalletOutput.nullifier_removeUnconfirmed {txid : Hash} {o o' : PqWalletOutput}
    (e : o.removeUnconfirmed txid = some o') : o'.nullifier = o.nullifier := by
  unfold removeUnconfirmed at e
  split at e
  · cases e
  · rw [Option.some.injEq] at e
    subst e
    split <;> rfl

/-- mirrors WalletLedger.cpp:626-670 -/
def Ledger.removeUnconfirmedTransaction (L : Ledger) (txid : Hash) : Ledger :=
  { L with
    outputs := L.outputs.filterMap (PqWalletOutput.removeUnconfirmed txid) PqWalletOutput.nullifier_removeUnconfirmed
    history :=
      match L.history.find txid with
      | some h => if h.height = unconfirmedHeight then L.history.erase txid else L.history
      | none => L.history }

/-! ## Queries -/

/-- Confirmed and past its own lock. -/
def PqWalletOutput.spendable (lastScannedHeight : UInt32) (o : PqWalletOutput) : Bool :=
  !o.spent && decide (o.height ≠ unconfirmedHeight) &&
    (o.unlockHeight == 0 || decide (o.unlockHeight ≤ lastScannedHeight.toUInt64))

def PqWalletOutput.spendInput (o : PqWalletOutput) : PqSpendInput :=
  ⟨o.txid, o.outputIndex, o.amount, o.rho, o.depositIndex⟩

/-- mirrors WalletLedger.cpp:532-567 -/
def Ledger.spendableInputs (L : Ledger) : List PqSpendInput :=
  (L.outputs.entries.filter (PqWalletOutput.spendable L.lastScannedHeight)).map PqWalletOutput.spendInput

/-- The loop of every balance query. -/
def Ledger.sumOf (L : Ledger) (p : PqWalletOutput → Bool) : UInt64 :=
  ((L.outputs.entries.filter p).map PqWalletOutput.amount).sum

/-- mirrors WalletLedger.cpp:400-408 -/
def Ledger.balance (L : Ledger) : UInt64 := L.sumOf fun o => !o.spent

/-- mirrors WalletLedger.cpp:410-418 -/
def Ledger.pendingBalance (L : Ledger) : UInt64 := L.sumOf fun o => !o.spent && o.height == unconfirmedHeight

/-- mirrors WalletLedger.cpp:420-438 -/
def Ledger.spendableBalance (L : Ledger) : UInt64 := L.sumOf (PqWalletOutput.spendable L.lastScannedHeight)

/-- mirrors WalletLedger.cpp:445-459 -/
def Ledger.depositBalance (L : Ledger) (depositIndex : UInt32) : UInt64 :=
  if depositIndex = pqUnattributedDeposit then 0
  else L.sumOf fun o => !o.spent && o.depositIndex == depositIndex

/-- mirrors WalletLedger.cpp:480-488 -/
def Ledger.depositPendingBalance (L : Ledger) (depositIndex : UInt32) : UInt64 :=
  L.sumOf fun o => !o.spent && o.depositIndex == depositIndex && o.height == unconfirmedHeight

/-- mirrors WalletLedger.cpp:509-517 -/
def Ledger.unattributedBalance (L : Ledger) : UInt64 :=
  L.sumOf fun o => !o.spent && o.depositIndex == pqUnattributedDeposit

/-! ## Look-ups

What each operation does to the record under a nullifier. -/

section
variable {W : WalletPrimitives} {txid : Hash} {height : UInt32}

/-- The second sight of the same spend at the same height changes nothing. -/
theorem PqWalletOutput.spendBy_spendBy (o : PqWalletOutput) :
    (o.spendBy txid height).spendBy txid height = o.spendBy txid height := by
  have hno : ¬ Promotes height height := fun h => h.2 h.1
  by_cases hs : o.spent
  · by_cases hp : Promotes o.spentHeight height <;> simp [spendBy, hs, hp, hno]
  · simp [spendBy, hs, hno]

theorem PqWalletOutput.spent_spendBy (o : PqWalletOutput) : (o.spendBy txid height).spent = true := by
  by_cases hs : o.spent
  · by_cases hp : Promotes o.spentHeight height <;> simp [spendBy, hs, hp]
  · simp [spendBy, hs]

theorem PqWalletOutput.height_spendBy (o : PqWalletOutput) : (o.spendBy txid height).height = o.height := by
  unfold spendBy
  split
  · rfl
  · split <;> rfl

theorem Scan.find_spend (s : Scan) (nf nf' : Hash) :
    (s.spend txid height nf).outputs.find nf' =
      (s.outputs.find nf').map fun o => if nf' = nf then o.spendBy txid height else o := by
  unfold Scan.spend
  split
  · rename_i hnone
    by_cases h : nf' = nf
    · rw [h, hnone]
      rfl
    · simp [h]
  · exact s.outputs.find_modify nf _ (PqWalletOutput.nullifier_spendBy txid height) nf'

/-- The loop over the inputs. -/
theorem Scan.find_spends (nf' : Hash) : ∀ (l : List Hash) (s : Scan),
    (l.foldl (Scan.spend txid height) s).outputs.find nf' =
      (s.outputs.find nf').map fun o => if nf' ∈ l then o.spendBy txid height else o
  | [], s => by simp
  | nf :: l, s => by
    rw [foldl_cons, Scan.find_spends nf' l, Scan.find_spend, Option.map_map]
    congr 1
    funext o
    by_cases hhead : nf' = nf <;> by_cases htail : nf' ∈ l <;>
      simp [hhead, htail, PqWalletOutput.spendBy_spendBy]

/-- What a receipt makes of the record it finds, if any. -/
def Receipt.applyTo (W : WalletPrimitives) (txid : Hash) (height : UInt32) (r : Receipt) :
    Option PqWalletOutput → PqWalletOutput
  | some o => if Promotes o.height height then o.confirmAt height r.unlockHeight else o
  | none => r.record W txid height

theorem Scan.find_receive (s : Scan) (r : Receipt) (nf : Hash) :
    (s.receive W txid height r).outputs.find nf =
      if nf = r.nullifier W txid then some (r.applyTo W txid height (s.outputs.find nf)) else s.outputs.find nf := by
  unfold Scan.receive
  split
  · rename_i o ho
    split
    · rename_i hp
      rw [s.outputs.find_modify _ _ (PqWalletOutput.nullifier_confirmAt height r.unlockHeight)]
      split
      · rename_i h
        rw [h, ho]
        simp [Receipt.applyTo, hp]
      · simp
    · rename_i hp
      split
      · rename_i h
        rw [h, ho]
        simp [Receipt.applyTo, hp]
      · rfl
  · rename_i hnone
    have hpush := MultiIndex.find_push (a := r.record W txid height) hnone nf
    split
    · rename_i h
      rw [hpush, h, hnone]
      exact if_pos rfl
    · rename_i h
      rw [hpush]
      exact if_neg h

theorem Ledger.find_rollback (L : Ledger) (h : UInt32) (nf : Hash) :
    (L.rollbackToHeight h).outputs.find nf = (L.outputs.find nf).bind (PqWalletOutput.rollback h) :=
  L.outputs.find_filterMap PqWalletOutput.nullifier_rollback nf

theorem Ledger.find_removeUnconfirmed (L : Ledger) (txid nf : Hash) :
    (L.removeUnconfirmedTransaction txid).outputs.find nf =
      (L.outputs.find nf).bind (PqWalletOutput.removeUnconfirmed txid) :=
  L.outputs.find_filterMap PqWalletOutput.nullifier_removeUnconfirmed nf

end

/-! ## What a record keeps

The operations drop records, add those of receipts and change heights and spend
marks. Everything else of a record stays. -/

/-- The outpoint, the value and the bucket. -/
def PqWalletOutput.origin (o : PqWalletOutput) : Hash × UInt32 × UInt64 × Rho × UInt32 :=
  (o.txid, o.outputIndex, o.amount, o.rho, o.depositIndex)

/-- Every record of the table comes from one that satisfies `P`. -/
def AllOrigins (P : Hash × UInt32 × UInt64 × Rho × UInt32 → Prop) (c : OutputTable) : Prop :=
  ∀ o ∈ c.entries, P o.origin

section
variable {W : WalletPrimitives} {P : Hash × UInt32 × UInt64 × Rho × UInt32 → Prop}

theorem PqWalletOutput.origin_spendBy (txid : Hash) (height : UInt32) (o : PqWalletOutput) :
    (o.spendBy txid height).origin = o.origin := by
  unfold spendBy
  split
  · rfl
  · split <;> rfl

theorem PqWalletOutput.origin_rollback {h : UInt32} {o o' : PqWalletOutput} (e : o.rollback h = some o') :
    o'.origin = o.origin := by
  unfold rollback at e
  split at e
  · cases e
  · rw [Option.some.injEq] at e
    subst e
    split <;> rfl

theorem PqWalletOutput.origin_removeUnconfirmed {txid : Hash} {o o' : PqWalletOutput}
    (e : o.removeUnconfirmed txid = some o') : o'.origin = o.origin := by
  unfold removeUnconfirmed at e
  split at e
  · cases e
  · rw [Option.some.injEq] at e
    subst e
    split <;> rfl

theorem AllOrigins.modify {c : OutputTable} (h : AllOrigins P c) (nf : Hash) {f : PqWalletOutput → PqWalletOutput}
    (hf : ∀ o, (f o).nullifier = o.nullifier) (hforigin : ∀ o, (f o).origin = o.origin) :
    AllOrigins P (c.modify nf f hf) := by
  intro o' ho'
  obtain ⟨o, ho, rfl⟩ := List.mem_map.mp ho'
  split
  · rw [hforigin]
    exact h o ho
  · exact h o ho

theorem AllOrigins.filterMap {c : OutputTable} (h : AllOrigins P c) {f : PqWalletOutput → Option PqWalletOutput}
    (hf : ∀ {o o'}, f o = some o' → o'.nullifier = o.nullifier)
    (hforigin : ∀ {o o'}, f o = some o' → o'.origin = o.origin) : AllOrigins P (c.filterMap f hf) := by
  intro o' ho'
  obtain ⟨o, ho, e⟩ := mem_filterMap.mp ho'
  rw [hforigin e]
  exact h o ho

theorem AllOrigins.spend {txid : Hash} {height : UInt32} {s : Scan} (h : AllOrigins P s.outputs) (nf : Hash) :
    AllOrigins P (s.spend txid height nf).outputs := by
  unfold Scan.spend
  split
  · exact h
  · exact h.modify nf (PqWalletOutput.nullifier_spendBy txid height) (PqWalletOutput.origin_spendBy txid height)

variable {r : Receipt}

theorem AllOrigins.receive {txid : Hash} {height : UInt32} {s : Scan} (h : AllOrigins P s.outputs)
    (hr : P (r.record W txid height).origin) : AllOrigins P (s.receive W txid height r).outputs := by
  unfold Scan.receive
  split
  · split
    · exact h.modify _ (PqWalletOutput.nullifier_confirmAt height r.unlockHeight) fun _ => rfl
    · exact h
  · intro o ho
    rcases MultiIndex.mem_push ho with ho | rfl
    · exact h o ho
    · exact hr

variable {tx : TransactionPrefix}

theorem AllOrigins.scanTransaction {L : Ledger} {txid : Hash} {height : UInt32} (h : AllOrigins P L.outputs)
    (hr : ∀ r ∈ receipts W (L.scanningKeys W) tx height, P (r.record W txid height).origin) :
    AllOrigins P (L.scanTransaction W tx txid height).outputs := by
  refine foldlRecOn (motive := fun s : Scan => AllOrigins P s.outputs) _ _ ?_ fun s hs r hmem => hs.receive (hr r hmem)
  exact foldlRecOn (motive := fun s : Scan => AllOrigins P s.outputs) _ _ h fun s hs nf _ => hs.spend nf

theorem AllOrigins.processTransaction {L : Ledger} {txid : Hash} {height : UInt32} {timestamp : UInt64}
    (h : AllOrigins P L.outputs) (hr : ∀ r ∈ receipts W (L.scanningKeys W) tx height, P (r.record W txid height).origin)
    : AllOrigins P (L.processTransaction W tx txid height timestamp).1.outputs := by
  unfold Ledger.processTransaction
  split
  · exact h
  · exact h.scanTransaction hr

theorem Ledger.keys_processTransaction (L : Ledger) (tx : TransactionPrefix) (txid : Hash) (height : UInt32)
    (timestamp : UInt64) : (L.processTransaction W tx txid height timestamp).1.keys = L.keys := by
  unfold Ledger.processTransaction
  split <;> rfl

/-! ## What recognition has checked -/

def TransactionOutput.commitment? (out : TransactionOutput) : Option Hash :=
  match out.target with
  | .pq po => some po.spendCommit
  | .coinbase co => some co.spendCommit
  | .key _ => none

/-- The bucket `depositIndex` of a wallet with the keys `K` belongs to `owner`. -/
inductive BucketOwner (K : LedgerKeys) (depositIndex : UInt32) (owner : DsaPublicKey) : Prop where
  | single : K.depositScheme = .singleKeyIndex → owner = K.spendPub → BucketOwner K depositIndex owner
  | primary : depositIndex = pqPrimaryDeposit → owner = K.spendPub → BucketOwner K depositIndex owner
  | deposit (d : Nat) : K.depositScheme = .aggregatedMultikey → depositIndex = UInt32.ofNat d →
      K.depositSpendPubs[d]? = some owner → BucketOwner K depositIndex owner

/-- A receipt is an output of the transaction that commits to its owner. -/
structure Receipt.Of (W : WalletPrimitives) (K : LedgerKeys) (i : UInt32) (out : TransactionOutput) (r : Receipt) :
    Prop where
  index : r.outputIndex = i
  amount : r.amount = out.amount
  commit : TransactionOutput.commitment? out = some (spendCommit W.toPrimitives r.owner r.rho)
  bucket : BucketOwner K r.depositIndex r.owner

theorem scanOutput_eq_some {i : UInt32} {out : TransactionOutput} {so : PqScanOutput} (h : scanOutput i out = some so) :
    so.amount = out.amount ∧ TransactionOutput.commitment? out = some so.spendCommit := by
  unfold scanOutput at h
  split at h
  · rename_i po hpo
    split at h
    · rw [Option.some.injEq] at h
      subst h
      exact ⟨rfl, by rw [TransactionOutput.commitment?, hpo]⟩
    · cases h
  · cases h

variable {K : LedgerKeys}

theorem recognizePq_of {ih : Hash} {mode : PqScanMode} {i : UInt32} {out : TransactionOutput}
    (h : recognizePq W K ih mode i out = some r) : r.Of W K i out := by
  obtain ⟨so, hso, h⟩ := Option.bind_eq_some_iff.mp h
  obtain ⟨hamount, hcommit⟩ := scanOutput_eq_some hso
  have hof : ∀ {owner : DsaPublicKey} {o : PqOwnedOutput} {d : UInt32}, Owned W owner so o → BucketOwner K d owner →
      Receipt.Of W K i out ⟨i, o.amount, o.rho, out.unlockHeight, owner, d⟩ := fun ho hb =>
    ⟨rfl, ho.amount.trans hamount, by rw [hcommit, ho.commit], hb⟩
  split at h
  · rename_i hs
    obtain ⟨o, ho, rfl⟩ := Option.map_eq_some_iff.mp h
    exact hof (scanPqOutputWithLegacyTWindow_owned ho) (.single hs rfl)
  · rename_i hs
    split at h
    · rename_i o ho
      rw [Option.some.injEq] at h
      subst h
      exact hof (scanPqOutput_owned ho) (.primary rfl rfl)
    · split at h
      · cases h
      · obtain ⟨agg, hagg, h⟩ := Option.bind_eq_some_iff.mp h
        obtain ⟨owner, howner, rfl⟩ := Option.map_eq_some_iff.mp h
        obtain ⟨p, hp, hown⟩ := scanPqOutputAggregate_owned hagg
        obtain rfl : p = owner := Option.some.inj (hp.symm.trans howner)
        exact hof hown (.deposit agg.spendPubIndex hs rfl hp)

/-- A coinbase output of `tx` commits to a deposit key. -/
def coinbasePaysDeposit (W : WalletPrimitives) (K : LedgerKeys) (tx : TransactionPrefix) (height : UInt32) : Bool :=
  decide (K.depositScheme = .aggregatedMultikey) && decide (tx.txType = txCoinbase) &&
    (indexedOutputs tx).any fun x =>
      match x.1.target with
      | .coinbase co => !decide (OpensCoinbase W height x.2 co K.spendPub) &&
          K.depositSpendPubs.any fun p => decide (OpensCoinbase W height x.2 co p)
      | _ => false

/-- A coinbase output is recognised by its owner's key; the bucket is right unless
that key is a deposit's. -/
theorem recognizeCoinbase_of {height : UInt32} {x : TransactionOutput × UInt32} (htx : tx.txType = txCoinbase)
    (hx : x ∈ indexedOutputs tx) (hno : coinbasePaysDeposit W K tx height = false)
    (h : recognizeCoinbase W K height x.2 x.1 = some r) : r.Of W K x.2 x.1 := by
  unfold recognizeCoinbase at h
  split at h
  · rename_i co hco
    obtain ⟨owner, howner, rfl⟩ := Option.map_eq_some_iff.mp h
    have hcommit : TransactionOutput.commitment? x.1 = some co.spendCommit := by
      rw [TransactionOutput.commitment?, hco]
    unfold coinbaseOwner at howner
    split at howner
    · rename_i hopen
      obtain rfl := Option.some.inj howner
      exact ⟨rfl, rfl, by rw [hcommit, hopen], .primary rfl rfl⟩
    · rename_i hclosed
      split at howner
      · rename_i hs
        -- the key found is one that `coinbasePaysDeposit` looks for
        exfalso
        have hany : coinbasePaysDeposit W K tx height = true := by
          simp only [coinbasePaysDeposit, hs, htx, decide_true, Bool.true_and]
          refine List.any_eq_true.mpr ⟨x, hx, ?_⟩
          simp only [hco, decide_eq_false hclosed, Bool.not_false, Bool.true_and]
          exact List.any_eq_true.mpr ⟨owner, mem_of_find?_eq_some howner, by simpa using find?_some howner⟩
        rw [hany] at hno
        cases hno
      · cases howner
  · cases h

theorem receipts_of {height : UInt32} (hno : coinbasePaysDeposit W K tx height = false) (h : r ∈ receipts W K tx height)
    : ∃ x ∈ indexedOutputs tx, r.Of W K x.2 x.1 := by
  rcases mem_append.mp h with h | h
  · obtain ⟨x, hx, h⟩ := mem_filterMap.mp h
    exact ⟨x, hx, recognizePq_of h⟩
  · split at h
    · rename_i htx
      obtain ⟨x, hx, h⟩ := mem_filterMap.mp h
      exact ⟨x, hx, recognizeCoinbase_of htx hx hno h⟩
    · cases h

end

/-! ## Signing what is offered -/

/-- The transactions on the chain, by id. -/
structure TxView where
  tx : Hash → Option TransactionPrefix
  outputs_lt : ∀ {txid t}, tx txid = some t → t.outputs.length < 2 ^ 32

/-- The commitment of an output on the chain. -/
def TxView.commitment (V : TxView) (txid : Hash) (i : UInt32) : Option Hash :=
  (V.tx txid).bind fun t => t.outputs[i.toNat]?.bind TransactionOutput.commitment?

theorem TxView.commitment_of_mem {V : TxView} {txid : Hash} {t : TransactionPrefix} (ht : V.tx txid = some t)
    {x : TransactionOutput × UInt32} (hx : x ∈ indexedOutputs t) :
    V.commitment txid x.2 = TransactionOutput.commitment? x.1 := by
  obtain ⟨⟨out, i⟩, hmem, rfl⟩ := List.mem_map.mp hx
  obtain ⟨-, hlt, hout⟩ := mem_zipIdx hmem
  have hi : (UInt32.ofNat i).toNat = i := by
    have := V.outputs_lt ht
    rw [UInt32.toNat_ofNat']
    omega
  have hget : t.outputs[i]? = some out := by
    rw [hout]
    simp only [Nat.sub_zero]
    exact getElem?_eq_getElem (by omega)
  simp [TxView.commitment, ht, hi, hget]

inductive LedgerEvent where
  | process (txid : Hash) (height : UInt32) (timestamp : UInt64)
  | rollback (h : UInt32)
  | removeUnconfirmed (txid : Hash)
  | growDeposits (depositCount : UInt32)
  | setLastScannedHeight (h : UInt32)
  | setLegacyTWindowRescan (maxT : UInt32)

/-- A ledger before its first transaction. -/
def Ledger.fresh (K : LedgerKeys) : Ledger := ⟨K, .empty, .empty, 0⟩

section
variable (W : WalletPrimitives) (V : TxView) (keys : PqWalletKeys)

def Ledger.step (L : Ledger) : LedgerEvent → Option Ledger
  | .process txid height timestamp =>
    (V.tx txid).map fun tx => (L.processTransaction W tx txid height timestamp).1
  | .rollback h => some (L.rollbackToHeight h)
  | .removeUnconfirmed txid => some (L.removeUnconfirmedTransaction txid)
  | .growDeposits depositCount =>
    if L.keys.depositCount ≤ depositCount then some (L.setDepositConfig W L.keys.depositScheme depositCount)
    else none
  | .setLastScannedHeight h => some { L with lastScannedHeight := h }
  | .setLegacyTWindowRescan maxT => some { L with keys := { L.keys with legacyTWindowMaxT := maxT } }

/-- A wallet scans with its seed or, as a tracking wallet, without. -/
def ledgerMachine : Machine Ledger LedgerEvent where
  Init L := ∃ scheme seedMaster, (seedMaster = some keys.seedMaster ∨ seedMaster = none) ∧
    L = (Ledger.fresh ⟨keys.viewSk, keys.spendPub, seedMaster, .aggregatedMultikey, 0, 0, []⟩).setDepositConfig W
      scheme 0
  step := Ledger.step W V

/-- No coinbase pays a deposit key, and no deposit index is a sentinel. -/
def KeepsBuckets (L : Ledger) : LedgerEvent → Prop
  | .process txid height _ => ∀ tx ∈ V.tx txid, coinbasePaysDeposit W (L.scanningKeys W) tx height = false
  | .growDeposits depositCount => L.keys.depositScheme = .aggregatedMultikey → depositCount ≤ pqUnattributedDeposit
  | _ => True

instance (L : Ledger) : (e : LedgerEvent) → Decidable (KeepsBuckets W V L e)
  | .process _ _ _ => inferInstanceAs (Decidable (∀ _ ∈ _, _))
  | .growDeposits _ => inferInstanceAs (Decidable (_ → _))
  | .rollback _ | .removeUnconfirmed _ | .setLastScannedHeight _ | .setLegacyTWindowRescan _ =>
    inferInstanceAs (Decidable True)

end

section
variable {W : WalletPrimitives} {V : TxView} {keys : PqWalletKeys}

/-- The ledger's keys are the wallet's: the cache holds the first deposit keys, and
its indices stay below the sentinels. -/
structure KeysOk (W : WalletPrimitives) (keys : PqWalletKeys) (K : LedgerKeys) : Prop where
  spendPub : K.spendPub = keys.spendPub
  seed : K.seedMaster = some keys.seedMaster ∨ K.seedMaster = none
  count : K.depositScheme = .aggregatedMultikey → K.depositCount ≤ pqUnattributedDeposit
  cache : ∃ n ≤ pqUnattributedDeposit.toNat,
    K.depositSpendPubs = (List.range n).map fun i => (deriveDepositSpendKeys W keys.seedMaster (UInt32.ofNat i)).1

variable {K : LedgerKeys}

theorem ensureDepositKeys_watching (count : UInt32) (hs : K.depositScheme = .aggregatedMultikey)
    (hseed : K.seedMaster = none) : K.ensureDepositKeys W count = { K with depositSpendPubs := [] } := by
  rw [LedgerKeys.ensureDepositKeys, if_neg (not_not.mpr hs), hseed]

/-- The loop appends the keys that are missing. -/
theorem ensureDepositKeys_cache {seed : SeedMaster} {n : Nat} (count : UInt32)
    (hs : K.depositScheme = .aggregatedMultikey) (hseed : K.seedMaster = some seed)
    (hcache : K.depositSpendPubs = (List.range n).map fun i => (deriveDepositSpendKeys W seed (UInt32.ofNat i)).1) :
    K.ensureDepositKeys W count = { K with
      depositSpendPubs := (List.range (n + (count.toNat - n))).map fun i =>
        (deriveDepositSpendKeys W seed (UInt32.ofNat i)).1 } := by
  have hlen : K.depositSpendPubs.length = n := by rw [hcache, length_map, length_range]
  rw [LedgerKeys.ensureDepositKeys, if_neg (not_not.mpr hs), hseed]
  dsimp only
  rw [hlen, hcache, ← map_append, range_eq_range', range_eq_range']
  congr 2
  simpa using @List.range'_append 0 n (count.toNat - n) 1

theorem KeysOk.ensureDepositKeys (h : KeysOk W keys K) {count : UInt32}
    (hcount : K.depositScheme = .aggregatedMultikey → count ≤ pqUnattributedDeposit) :
    KeysOk W keys (K.ensureDepositKeys W count) := by
  obtain ⟨n, hn, hcache⟩ := h.cache
  cases hs : K.depositScheme with
  | singleKeyIndex =>
    rw [LedgerKeys.ensureDepositKeys, if_pos (by rw [hs]; decide)]
    exact h
  | aggregatedMultikey =>
    have hle := UInt32.le_iff_toNat_le.mp (hcount hs)
    rcases h.seed with hseed | hseed
    · rw [ensureDepositKeys_cache count hs hseed hcache]
      exact ⟨h.spendPub, h.seed, h.count, n + (count.toNat - n), by omega, rfl⟩
    · rw [ensureDepositKeys_watching count hs hseed]
      exact ⟨h.spendPub, h.seed, h.count, 0, by decide, rfl⟩

/-- The key the sender picks for a bucket is the bucket's owner. -/
theorem BucketOwner.authFor {d : UInt32} {owner : DsaPublicKey} (h : BucketOwner K d owner) (hK : KeysOk W keys K) :
    (L6.authFor W keys K.depositScheme d).spendPub = owner := by
  cases h with
  | single hs ho => rw [L6.authFor, if_pos (.inl hs), ho, hK.spendPub]
  | primary hd ho => rw [L6.authFor, if_pos (.inr (.inl hd)), ho, hK.spendPub]
  | deposit i hs hd hp =>
    obtain ⟨n, hn, hcache⟩ := hK.cache
    have hi : i < n := by
      have := (List.getElem?_eq_some_iff.mp hp).1
      rwa [hcache, length_map, length_range] at this
    have hval : d.toNat = i := by
      rw [hd, UInt32.toNat_ofNat']
      have : pqUnattributedDeposit.toNat < 2 ^ 32 := by decide
      omega
    have hne : ¬ (K.depositScheme = .singleKeyIndex ∨ d = pqPrimaryDeposit ∨ d = pqUnattributedDeposit) := by
      have hprimary : pqUnattributedDeposit.toNat < pqPrimaryDeposit.toNat := by decide
      rw [hs]
      intro h
      rcases h with h | h | h
      · cases h
      · rw [h] at hval
        omega
      · rw [h] at hval
        omega
    have howner : some owner = some (deriveDepositSpendKeys W keys.seedMaster (UInt32.ofNat i)).1 := by
      rw [← hp, hcache, getElem?_map, getElem?_range hi]
      rfl
    rw [L6.authFor, if_neg hne, hd]
    exact (Option.some.inj howner).symm

/-- The key of the bucket opens the commitment on the chain. -/
def OpensOnChain (W : WalletPrimitives) (V : TxView) (keys : PqWalletKeys) (scheme : PqDepositScheme)
    (o : Hash × UInt32 × UInt64 × Rho × UInt32) : Prop :=
  V.commitment o.1 o.2.1 = some (spendCommit W.toPrimitives (authFor W keys scheme o.2.2.2.2).spendPub o.2.2.2.1)

structure LedgerInv (W : WalletPrimitives) (V : TxView) (keys : PqWalletKeys) (L : Ledger) : Prop where
  keysOk : KeysOk W keys L.keys
  opens : AllOrigins (OpensOnChain W V keys L.keys.depositScheme) L.outputs

theorem scheme_ensureDepositKeys (K : LedgerKeys) (count : UInt32) :
    (K.ensureDepositKeys W count).depositScheme = K.depositScheme := by
  unfold LedgerKeys.ensureDepositKeys
  split
  · rfl
  · split <;> rfl

variable {L : Ledger}

theorem KeysOk.scanningKeys (h : KeysOk W keys L.keys) : KeysOk W keys (L.scanningKeys W) :=
  h.ensureDepositKeys h.count

theorem LedgerInv.process (h : LedgerInv W V keys L) {txid : Hash} {tx : TransactionPrefix} {height : UInt32}
    {timestamp : UInt64} (htx : V.tx txid = some tx) (hno : coinbasePaysDeposit W (L.scanningKeys W) tx height = false)
    : LedgerInv W V keys (L.processTransaction W tx txid height timestamp).1 := by
  have hkeys := L.keys_processTransaction (W := W) tx txid height timestamp
  refine ⟨hkeys ▸ h.keysOk, ?_⟩
  rw [hkeys]
  refine h.opens.processTransaction fun r hr => ?_
  obtain ⟨x, hx, hof⟩ := receipts_of hno hr
  have hauth := hof.bucket.authFor h.keysOk.scanningKeys
  rw [Ledger.scanningKeys, scheme_ensureDepositKeys] at hauth
  show V.commitment txid r.outputIndex = some (spendCommit W.toPrimitives (authFor W keys _ r.depositIndex).spendPub r.rho)
  rw [hof.index, V.commitment_of_mem htx hx, hof.commit, hauth]

theorem LedgerInv.step {L' : Ledger} {e : LedgerEvent} (h : LedgerInv W V keys L) (hg : KeepsBuckets W V L e)
    (hstep : L.step W V e = some L') : LedgerInv W V keys L' := by
  cases e with
  | process txid height timestamp =>
    obtain ⟨tx, htx, rfl⟩ := Option.map_eq_some_iff.mp hstep
    exact h.process htx (hg tx htx)
  | rollback k =>
    obtain rfl := Option.some.inj hstep
    exact ⟨h.keysOk, h.opens.filterMap PqWalletOutput.nullifier_rollback PqWalletOutput.origin_rollback⟩
  | removeUnconfirmed txid =>
    obtain rfl := Option.some.inj hstep
    exact ⟨h.keysOk,
      h.opens.filterMap PqWalletOutput.nullifier_removeUnconfirmed PqWalletOutput.origin_removeUnconfirmed⟩
  | growDeposits count =>
    rw [Ledger.step] at hstep
    split at hstep
    · obtain rfl := Option.some.inj hstep
      have hconfig : KeysOk W keys (L.keys.withConfig L.keys.depositScheme count) :=
        ⟨h.keysOk.spendPub, h.keysOk.seed, hg, by simpa [LedgerKeys.withConfig] using h.keysOk.cache⟩
      refine ⟨hconfig.ensureDepositKeys hg, ?_⟩
      have hscheme : (L.setDepositConfig W L.keys.depositScheme count).keys.depositScheme = L.keys.depositScheme := by
        rw [Ledger.setDepositConfig, scheme_ensureDepositKeys]
        rfl
      rw [hscheme]
      exact h.opens
    · cases hstep
  | setLastScannedHeight k =>
    obtain rfl := Option.some.inj hstep
    exact ⟨h.keysOk, h.opens⟩
  | setLegacyTWindowRescan maxT =>
    obtain rfl := Option.some.inj hstep
    exact ⟨⟨h.keysOk.spendPub, h.keysOk.seed, h.keysOk.count, h.keysOk.cache⟩, h.opens⟩

theorem LedgerInv.init (h : (ledgerMachine W V keys).Init L) : LedgerInv W V keys L := by
  obtain ⟨scheme, seedMaster, hseed, rfl⟩ := h
  have hzero : (0 : UInt32) ≤ pqUnattributedDeposit := by decide
  have hconfig : KeysOk W keys
      (LedgerKeys.withConfig ⟨keys.viewSk, keys.spendPub, seedMaster, .aggregatedMultikey, 0, 0, []⟩ scheme 0) :=
    ⟨rfl, hseed, fun _ => hzero, 0, by decide, by simp [LedgerKeys.withConfig]⟩
  refine ⟨hconfig.ensureDepositKeys fun _ => hzero, fun o ho => ?_⟩
  cases ho

theorem ledgerInv_reachable (h : ((ledgerMachine W V keys).lts (KeepsBuckets W V)).Reachable L) :
    LedgerInv W V keys L :=
  (Machine.inductive_of_step LedgerInv.init LedgerInv.step).reachable h

/-- In every run whose events keep to their buckets, the key the sender picks for an
offered input opens the commitment of the output on the chain. -/
theorem spendableInputs_open {L : Ledger} (h : ((ledgerMachine W V keys).lts (KeepsBuckets W V)).Reachable L) :
    ∀ si ∈ L.spendableInputs, V.commitment si.prevTxid si.prevOutIndex =
        some (spendCommit W.toPrimitives (authFor W keys L.keys.depositScheme si.depositIndex).spendPub si.rho) := by
  intro si hsi
  obtain ⟨o, ho, rfl⟩ := List.mem_map.mp hsi
  exact (ledgerInv_reachable h).opens o (mem_filter.mp ho).1

end

/-- The coinbase of the block at `height` pays `spendPub`. -/
def toyCoinbaseTx (spendPub : DsaPublicKey) (height : UInt32) : TransactionPrefix where
  version := transactionVersion1
  txType := txCoinbase
  unlockHeight := 0
  inputs := [.base ⟨height⟩]
  outputs := [⟨100, 0, .coinbase ⟨spendCommit toyWallet.toPrimitives spendPub
    (coinbaseRho toyWallet.toPrimitives spendPub height 0)⟩⟩]
  extra := []

def toyCoinbaseView (spendPub : DsaPublicKey) : TxView where
  tx txid := if txid = nullHash then some (toyCoinbaseTx spendPub 5) else none
  outputs_lt := by
    intro txid t ht
    split at ht
    · rw [← Option.some.inj ht]
      show 1 < 2 ^ 32
      decide
    · cases ht

def toyDepositKey : DsaPublicKey := (deriveDepositSpendKeys toyWallet toySeed 0).1

def toyEvents : List LedgerEvent := [.growDeposits 1, .process nullHash 5 0, .setLastScannedHeight 5]

def toyLedger : Ledger :=
  (Ledger.fresh ⟨toyKeys.viewSk, toyKeys.spendPub, some toySeed, .aggregatedMultikey, 0, 0, []⟩).setDepositConfig
    toyWallet .aggregatedMultikey 0

theorem toyLedger_reachable (V : TxView) (G : Ledger → LedgerEvent → Prop) :
    ((ledgerMachine toyWallet V toyKeys).lts G).Reachable toyLedger :=
  .init ⟨.aggregatedMultikey, some toySeed, .inl rfl, rfl⟩

/-- A block pays the primary key of a wallet with one deposit. -/
theorem spendableInputs_open_primary :
    ∃ L, ((ledgerMachine toyWallet (toyCoinbaseView toyKeys.spendPub) toyKeys).lts
        (KeepsBuckets toyWallet (toyCoinbaseView toyKeys.spendPub))).Reachable L ∧
      L.keys.depositCount = 1 ∧ L.spendableInputs.length = 1 ∧
      ∀ si ∈ L.spendableInputs, (toyCoinbaseView toyKeys.spendPub).commitment si.prevTxid si.prevOutIndex =
        some (spendCommit toyWallet.toPrimitives
          (authFor toyWallet toyKeys L.keys.depositScheme si.depositIndex).spendPub si.rho) := by
  obtain ⟨L, hreach, hcount, hlen⟩ := Machine.exists_run
    (P := fun L => L.keys.depositCount = 1 ∧ L.spendableInputs.length = 1)
    (toyLedger_reachable (toyCoinbaseView toyKeys.spendPub) (KeepsBuckets toyWallet (toyCoinbaseView toyKeys.spendPub))) toyEvents (by decide +kernel)
  exact ⟨L, hreach, hcount, hlen, spendableInputs_open hreach⟩

/-- A block pays the first deposit key: the output is offered under the primary key,
which does not open it. -/
theorem coinbase_deposit_unsignable :
    ∃ L, ((ledgerMachine toyWallet (toyCoinbaseView toyDepositKey) toyKeys).lts Machine.anyEvent).Reachable L ∧
      ∃ si ∈ L.spendableInputs, (toyCoinbaseView toyDepositKey).commitment si.prevTxid si.prevOutIndex ≠
        some (spendCommit toyWallet.toPrimitives
          (authFor toyWallet toyKeys L.keys.depositScheme si.depositIndex).spendPub si.rho) := by
  exact Machine.exists_run (toyLedger_reachable _ _) toyEvents (by decide +kernel)

example : toyDepositKey ≠ toyKeys.spendPub := by decide +kernel

end Discrete.L6
