import Discrete.Core.Table
import Discrete.L3Ledger.Currency

/-!
# The chain database (`LMDBBlockchainDB.cpp`, `Blockchain.cpp`)

The tables of the block store and the code that writes them for one transaction
(`pushTransaction`), takes them back (`popTransaction`) and takes back a whole
block (`removeLastBlock`). The chain is the list of block metadata; its length is
the height of the next block.

Blocks and transactions are kept in the tables as values. The source stores
`toBinaryArray` of them and reads them back with `fromBinaryArray`; on what came
off the wire these are inverse (`toBinaryArray_fromBinaryArray`,
`fromBinaryArray_toBinaryArray`).

* `pushTransaction_eq_some`: a push succeeds exactly when everything it would
  write is new, and then it has written all of it (`writeTransaction`).
-/
namespace Discrete.L3
open L1 L2

/-- mirrors LMDBBlockchainDB.h (`DbBlockMeta`) -/
structure DbBlockMeta where
  hash : Hash
  prevHash : Hash
  timestamp : UInt64
  cumulativeDifficulty : UInt64
  alreadyGeneratedCoins : UInt64
  blockCumulativeSize : UInt32
  height : Nat
  txCount : Nat
  majorVersion : UInt8
  minorVersion : UInt8
  deriving DecidableEq

/-- The named databases of the environment. -/
@[ext] structure Db where
  /-- `block_meta`, from height 0 up. -/
  metas : List DbBlockMeta
  blockData : Table Nat Block
  /-- `tx_entries`, by height and slot; slot 0 is the coinbase. -/
  txEntries : Table (Nat × Nat) Transaction
  hashHeight : Table Hash Nat
  spentKeys : Table Hash Nat
  pqAcctReg : Table Hash (Nat × Nat)
  txIndex : Table Hash (Nat × Nat)
  /-- `payment_id_idx`: a set of (payment id, transaction) pairs. -/
  paymentIds : Table (Hash × Hash) Unit
  /-- `timestamp_idx`: a set of (timestamp, block) pairs. -/
  timestamps : Table (UInt64 × Hash) Unit
  genTxCount : Table Nat UInt64

def Db.empty : Db where
  metas := []
  blockData := .empty
  txEntries := .empty
  hashHeight := .empty
  spentKeys := .empty
  pqAcctReg := .empty
  txIndex := .empty
  paymentIds := .empty
  timestamps := .empty
  genTxCount := .empty

/-- mirrors LMDBBlockchainDB.cpp:367-381 -/
def Db.getChainHeight (db : Db) : Nat := db.metas.length

/-- mirrors Blockchain.cpp:625-634 -/
def Db.getTailId (db : Db) : Hash := (db.metas.getLast?.map DbBlockMeta.hash).getD nullHash

/-- mirrors Blockchain.cpp:636-643 -/
def Db.getBlockIdByHeight (db : Db) (height : Nat) : Hash :=
  ((db.metas[height]?).map DbBlockMeta.hash).getD nullHash

/-- The metadata of the heights from `fromHeight` to `toHeight`.
mirrors LMDBBlockchainDB.cpp:482-507 -/
def Db.getBlockMetaRange (db : Db) (fromHeight toHeight : Nat) : List DbBlockMeta :=
  (db.metas.drop fromHeight).take (toHeight + 1 - fromHeight)

/-- `none` is the exception for an entry that is not there.
mirrors Blockchain.cpp:2363-2393 -/
def Db.transactionByIndex (db : Db) (block slot : Nat) : Option Transaction := db.txEntries (block, slot)

/-! ## Account identities -/

/-- "discrete-pq-account-id-v1" -/
def kDomainAccountId : Bytes := domainTag
  ['d', 'i', 's', 'c', 'r', 'e', 't', 'e', '-', 'p', 'q', '-', 'a', 'c', 'c', 'o', 'u', 'n', 't', '-',
   'i', 'd', '-', 'v', '1']

/-- mirrors TransactionExtra.cpp:380-394 -/
def getPqAccountIdentityHash (P : Primitives) (reg : ExtraPqAccountRegistration) : Hash :=
  P.sha3_256 (kDomainAccountId ++ reg.viewPub.val ++ reg.spendPub.val)

/-- The account a transaction registers, if any.
mirrors TransactionPool.cpp:53-60 -/
def getPqAccountRegistrationId (P : Primitives) (tx : Transaction) : Option Hash :=
  (getPqAccountRegistrationFromExtra tx.extra).map (getPqAccountIdentityHash P)

/-! ## One transaction -/

/-- The spend tags of a transaction's inputs, in order (`spendImageForInput`).
mirrors Blockchain.cpp:2836-2843 -/
def spendImages (P : Primitives) (tx : Transaction) : List Hash := tx.pqInputs.map (pqNullifier P)

/-- The account registrations after a transaction in `slot`; `none` if it registers
an account that is already registered. The coinbase registers nothing. -/
def pushRegistration (P : Primitives) (t : Table Hash (Nat × Nat)) (height slot : Nat) (tx : Transaction) :
    Option (Table Hash (Nat × Nat)) :=
  if slot = 0 then some t
  else
    match getPqAccountRegistrationId P tx with
    | none => some t
    | some accountId => if (t accountId).isSome then none else some (t.put accountId (height, slot))

/-- mirrors Blockchain.cpp:2845-2936 -/
def pushTransaction (P : Primitives) (db : Db) (height slot : Nat) (hash : Hash) (tx : Transaction) :
    Option Db :=
  if (db.txIndex hash).isSome then none
  else
    match db.spentKeys.putFresh height (spendImages P tx) with
    | none => none
    | some spentKeys =>
      match pushRegistration P db.pqAcctReg height slot tx with
      | none => none
      | some pqAcctReg =>
        some { db with
          spentKeys := spentKeys
          txIndex := db.txIndex.put hash (height, slot)
          paymentIds := db.paymentIds.putOpt ((getPaymentIdFromTxExtra tx.extra).map (·, hash)) ()
          pqAcctReg := pqAcctReg
          txEntries := db.txEntries.put (height, slot) tx }

/-- Registrations are taken back whatever the slot.
mirrors Blockchain.cpp:2938-2976 -/
def popTransaction (P : Primitives) (db : Db) (hash : Hash) (tx : Transaction) : Db :=
  { db with
    spentKeys := db.spentKeys.removeAll (spendImages P tx)
    paymentIds := db.paymentIds.removeOpt ((getPaymentIdFromTxExtra tx.extra).map (·, hash))
    pqAcctReg := db.pqAcctReg.removeOpt (getPqAccountRegistrationId P tx)
    txIndex := db.txIndex.remove hash }

/-- The hashes under which a block's transactions are indexed, by slot. -/
def blockTxHashes (P : Primitives) (b : Block) : List Hash :=
  getObjectHash P b.baseTransaction :: b.transactionHashes

/-- Without a block, or without one of its entries, the source logs an error or
throws before it has written anything.
mirrors Blockchain.cpp:2989-3060 -/
def removeLastBlock (P : Primitives) (db : Db) : Db :=
  let height := db.getChainHeight - 1
  match db.metas.getLast?, db.blockData height with
  | some entry, some blk =>
    match (List.range entry.txCount).mapM fun t => db.transactionByIndex height t with
    | none => db
    | some txs =>
      -- last transaction first, coinbase last
      let db' := (((blockTxHashes P blk).zip txs).reverse).foldl (fun db x => popTransaction P db x.1 x.2) db
      { db' with
        txEntries := db'.txEntries.removeAll ((List.range entry.txCount).map (height, ·))
        blockData := db'.blockData.remove height
        hashHeight := db'.hashHeight.remove entry.hash
        genTxCount := db'.genTxCount.remove height
        timestamps := db'.timestamps.remove (entry.timestamp, entry.hash)
        metas := db'.metas.dropLast }
  | _, _ => db

/-! ## What one push writes -/

/-- Everything `pushTransaction` writes, without its checks; an account that is
already registered keeps its first registration. -/
def writeTransaction (P : Primitives) (db : Db) (height slot : Nat) (hash : Hash) (tx : Transaction) : Db :=
  { db with
    spentKeys := db.spentKeys.putAll height (spendImages P tx)
    txIndex := db.txIndex.put hash (height, slot)
    paymentIds := db.paymentIds.putOpt ((getPaymentIdFromTxExtra tx.extra).map (·, hash)) ()
    pqAcctReg := (pushRegistration P db.pqAcctReg height slot tx).getD db.pqAcctReg
    txEntries := db.txEntries.put (height, slot) tx }

/-- What `pushTransaction` checks: nothing it would write is there already. -/
structure TxFresh (P : Primitives) (db : Db) (slot : Nat) (hash : Hash) (tx : Transaction) : Prop where
  id : db.txIndex hash = none
  images : ∀ k ∈ spendImages P tx, db.spentKeys k = none
  nodup : (spendImages P tx).Nodup
  account : slot ≠ 0 → ∀ a, getPqAccountRegistrationId P tx = some a → db.pqAcctReg a = none

theorem pushRegistration_isSome {P : Primitives} {t : Table Hash (Nat × Nat)} {height slot : Nat} {tx : Transaction} :
    (pushRegistration P t height slot tx).isSome ↔
      (slot ≠ 0 → ∀ a, getPqAccountRegistrationId P tx = some a → t a = none) := by
  unfold pushRegistration
  split
  · simp_all
  · rename_i hs
    cases ha : getPqAccountRegistrationId P tx with
    | none => simp
    | some a => cases ht : t a <;> simp [hs, ht]

theorem pushTransaction_eq_some {P : Primitives} {db db' : Db} {height slot : Nat} {hash : Hash} {tx : Transaction} :
    pushTransaction P db height slot hash tx = some db' ↔
      TxFresh P db slot hash tx ∧ db' = writeTransaction P db height slot hash tx := by
  unfold pushTransaction
  constructor
  · intro h
    split at h; · cases h
    rename_i hid
    split at h; · cases h
    rename_i spent hspent
    split at h; · cases h
    rename_i regs hregs
    obtain ⟨himg, hnd, rfl⟩ := Table.putFresh_eq_some.mp hspent
    refine ⟨⟨by simpa using hid, himg, hnd, pushRegistration_isSome.mp (by rw [hregs]; rfl)⟩, ?_⟩
    simp only [Option.some.injEq] at h
    rw [← h, writeTransaction, hregs, Option.getD_some]
  · rintro ⟨hf, rfl⟩
    rw [if_neg (by rw [hf.id]; simp)]
    have hspent := Table.putFresh_eq_some.mpr
      ⟨hf.images, hf.nodup, (rfl : _ = db.spentKeys.putAll height (spendImages P tx))⟩
    rw [hspent]
    obtain ⟨regs, hregs⟩ := Option.isSome_iff_exists.mp
      ((@pushRegistration_isSome P db.pqAcctReg height slot tx).mpr hf.account)
    simp only [hregs, writeTransaction, Option.getD_some]

/-! ## Fields that a transaction leaves alone -/

section Frame
variable (P : Primitives) (db : Db) (height slot : Nat) (hash : Hash) (tx : Transaction)

@[simp] theorem writeTransaction_txIndex :
    (writeTransaction P db height slot hash tx).txIndex = db.txIndex.put hash (height, slot) := rfl
@[simp] theorem writeTransaction_txEntries :
    (writeTransaction P db height slot hash tx).txEntries = db.txEntries.put (height, slot) tx := rfl
@[simp] theorem writeTransaction_spentKeys :
    (writeTransaction P db height slot hash tx).spentKeys = db.spentKeys.putAll height (spendImages P tx) := rfl

end Frame

end Discrete.L3
