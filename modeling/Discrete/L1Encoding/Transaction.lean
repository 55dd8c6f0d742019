import Discrete.L1Encoding.Varint

/-!
# Transactions and blocks (`include/CryptoNote.h`, `include/PqTxType.h`)

The in-memory types. Byte vectors (`std::vector<uint8_t>`) keep whatever length
they have; the wire format and the consensus checks are what pin the lengths
below. A `PqInput` has two wire forms: key-carrying, and key-reference, where
`keyRef` names an earlier input of the same transaction that carries the key.

`ParentBlock` (merge mining) is left out: `serialize(Block)` never reads or
writes it.
-/
namespace Discrete.L1

abbrev Hash := Blob 32

instance : LawfulBEq Hash := inferInstance

/-- `NULL_HASH`, and the value of a default-initialised `Crypto::Hash{}`. -/
def nullHash : Hash := ⟨List.replicate 32 0, List.length_replicate⟩

def pqKemCiphertextSize : Nat := 1088
def pqEncPayloadSize : Nat := 56
def pqAuthPubSize : Nat := 1952
def pqRhoSize : Nat := 32
def pqSignatureSize : Nat := 3309
def pqViewPubSize : Nat := 1184

/-- `PqInput::keyRef` of an input that carries its own key. -/
def pqNoKeyRef : UInt32 := 0xFFFFFFFF

/-- `TRANSACTION_VERSION_1` -/
def transactionVersion1 : UInt8 := 1

/-- mirrors include/PqTxType.h:37-42 -/
def txCoinbase : UInt8 := 0x00
def txPq : UInt8 := 0x01
def txFreeReg : UInt8 := 0x03
def txPqV2 : UInt8 := 0x04

/-- mirrors include/PqTxType.h:47-49 -/
def isPqTransfer (txType : UInt8) : Bool := txType = txPq || txType = txPqV2

structure BaseInput where
  blockIndex : UInt32
  deriving DecidableEq

structure PqInput where
  prevTxid : Hash
  prevOutIndex : UInt32
  authPub : Bytes
  rhoReveal : Bytes
  keyRef : UInt32
  deriving DecidableEq

inductive TransactionInput where
  | base (b : BaseInput)
  | pq (i : PqInput)
  deriving DecidableEq

structure PqOutput where
  kemCt : Bytes
  encPayload : Bytes
  spendCommit : Hash
  deriving DecidableEq

structure CoinbaseOutput where
  spendCommit : Hash
  deriving DecidableEq

/-- `KeyOutput` is the legacy stub: it can sit in the variant but neither
direction of the wire format admits it. -/
inductive TransactionOutputTarget where
  | key (k : Blob 32)
  | pq (o : PqOutput)
  | coinbase (o : CoinbaseOutput)
  deriving DecidableEq

structure TransactionOutput where
  amount : UInt64
  unlockHeight : UInt64
  target : TransactionOutputTarget
  deriving DecidableEq

structure TransactionPrefix where
  version : UInt8
  txType : UInt8
  unlockHeight : UInt64
  inputs : List TransactionInput
  outputs : List TransactionOutput
  extra : Bytes
  deriving DecidableEq

structure Transaction extends TransactionPrefix where
  pqSignatures : List (Blob pqSignatureSize)
  deriving DecidableEq

structure BlockHeader where
  majorVersion : UInt8
  minorVersion : UInt8
  nonce : UInt32
  timestamp : UInt64
  previousBlockHash : Hash
  deriving DecidableEq

structure Block extends BlockHeader where
  baseTransaction : Transaction
  signature : Bytes
  transactionHashes : List Hash
  deriving DecidableEq

/-! ## Inputs -/

/-- The `PqInput`s of a transaction, in order. -/
def TransactionInput.pq? : TransactionInput → Option PqInput
  | .base _ => none
  | .pq i => some i

@[simp] theorem TransactionInput.pq?_base (b : BaseInput) : (TransactionInput.base b).pq? = none := rfl
@[simp] theorem TransactionInput.pq?_pq (i : PqInput) : (TransactionInput.pq i).pq? = some i := rfl

theorem TransactionInput.pq?_eq_some {t : TransactionInput} {i : PqInput} : t.pq? = some i ↔ t = .pq i := by
  cases t <;> simp

def TransactionPrefix.pqInputs (tx : TransactionPrefix) : List PqInput :=
  tx.inputs.filterMap TransactionInput.pq?

def PqInput.carriesKey (i : PqInput) : Bool := i.keyRef = pqNoKeyRef

def TransactionInput.carriesKey : TransactionInput → Bool
  | .base _ => false
  | .pq i => i.carriesKey

end Discrete.L1
