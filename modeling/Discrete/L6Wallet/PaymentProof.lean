import Mathlib.Data.List.Sort
import Discrete.L2Validation.TransferEncoding
import Discrete.L6Wallet.Output

/-!
# Payment proofs (`PqPaymentProof.cpp`)

A payment proof opens the spend commitments of some outputs of a transaction: it
lists output indices with their openings and names the chain, the transaction and
the recipient's spend key. The text codec of a proof is not modelled here.

* `verifyPqPaymentProof_single`: the proof of one output that commits to the
  recipient's key verifies with that output's amount.
-/
namespace Discrete.L6
open L1 L2 Codec

def kPqPaymentProofVersion : UInt8 := 2
def kMaxPqPaymentProofEntries : Nat := 64

/-- "discrete-pq-spend-authority-v1" -/
def kSpendAuthorityDomain : Bytes := domainTag
  ['d', 'i', 's', 'c', 'r', 'e', 't', 'e', '-', 'p', 'q', '-', 's', 'p', 'e', 'n', 'd', '-', 'a', 'u',
   't', 'h', 'o', 'r', 'i', 't', 'y', '-', 'v', '1']

structure PqPaymentProofEntry where
  outputIndex : UInt32
  rho : Rho
  deriving DecidableEq

structure PqPaymentProof where
  version : UInt8
  genesisId : Hash
  txid : Hash
  spendAuthorityHash : Hash
  entries : List PqPaymentProofEntry
  deriving DecidableEq

structure PqPaymentProofTransaction where
  txid : Hash
  inputsHash : Hash
  outputs : List PqScanOutput

/-- The recipient's view key and route are carried along and never read. -/
structure ResolvedRecipient where
  viewPub : KemPublicKey
  spendPub : DsaPublicKey
  subaddrIndexT : UInt64

inductive PqPaymentProofError where
  | entryCount | duplicateIndex | version | network | transaction | spendAuthority | invalidCount
  | outOfRange | nonCanonicalIndex | spendCommitment | amountOverflow
  deriving DecidableEq, Repr

def PqPaymentProofError.text : PqPaymentProofError → String
  | .entryCount => "payment proof must contain 1..64 entries"
  | .duplicateIndex => "duplicate payment proof output index"
  | .version => "unsupported payment proof version"
  | .network => "payment proof network mismatch"
  | .transaction => "payment proof transaction mismatch"
  | .spendAuthority => "payment proof spend authority mismatch"
  | .invalidCount => "invalid payment proof entry count"
  | .outOfRange => "duplicate or out-of-range payment proof output index"
  | .nonCanonicalIndex => "non-canonical transaction output index"
  | .spendCommitment => "payment proof spend commitment mismatch"
  | .amountOverflow => "payment proof amount overflow"

section
variable (W : WalletPrimitives)

/-- mirrors PqPaymentProof.cpp:100-104 -/
def pqSpendAuthorityHash (spendPub : DsaPublicKey) : Hash :=
  W.sha3_256 (kSpendAuthorityDomain ++ spendPub.val)

/-- `std::adjacent_find` with equal indices. -/
def adjacentEqual : List PqPaymentProofEntry → Bool
  | a :: b :: l => decide (a.outputIndex = b.outputIndex) || adjacentEqual (b :: l)
  | _ => false

/-- mirrors PqPaymentProof.cpp:106-129 -/
def makePqPaymentProof (genesisId txid : Hash) (recipient : ResolvedRecipient)
    (entries : List PqPaymentProofEntry) : Except PqPaymentProofError PqPaymentProof :=
  if entries = [] ∨ entries.length > kMaxPqPaymentProofEntries then .error .entryCount
  else
    let sorted := entries.insertionSort fun a b => a.outputIndex.toNat ≤ b.outputIndex.toNat
    if adjacentEqual sorted then .error .duplicateIndex
    else .ok ⟨kPqPaymentProofVersion, genesisId, txid, pqSpendAuthorityHash W recipient.spendPub, sorted⟩

/-- The indices seen so far and the running total. -/
structure ProofScan where
  seen : List Nat
  total : UInt64

/-- One turn of the verifier's loop. -/
def verifyEntry (tx : PqPaymentProofTransaction) (recipient : ResolvedRecipient) (s : ProofScan)
    (entry : PqPaymentProofEntry) : Except PqPaymentProofError ProofScan :=
  match tx.outputs[entry.outputIndex.toNat]? with
  | none => .error .outOfRange
  | some output =>
    if entry.outputIndex.toNat ∈ s.seen then .error .outOfRange
    else if output.outputIndex ≠ entry.outputIndex then .error .nonCanonicalIndex
    else if spendCommit W.toPrimitives recipient.spendPub entry.rho ≠ output.spendCommit then
      .error .spendCommitment
    else if s.total > 0xFFFFFFFFFFFFFFFF - output.amount then .error .amountOverflow
    else .ok ⟨s.seen ++ [entry.outputIndex.toNat], s.total + output.amount⟩

/-- mirrors PqPaymentProof.cpp:157-200 -/
def verifyPqPaymentProof (proof : PqPaymentProof) (expectedGenesisId : Hash) (tx : PqPaymentProofTransaction)
    (recipient : ResolvedRecipient) : Except PqPaymentProofError UInt64 :=
  if proof.version ≠ kPqPaymentProofVersion then .error .version
  else if proof.genesisId ≠ expectedGenesisId then .error .network
  else if proof.txid ≠ tx.txid then .error .transaction
  else if proof.spendAuthorityHash ≠ pqSpendAuthorityHash W recipient.spendPub then .error .spendAuthority
  else if proof.entries = [] ∨ proof.entries.length > kMaxPqPaymentProofEntries then .error .invalidCount
  else
    match foldSteps (verifyEntry W tx recipient) ⟨[], 0⟩ proof.entries with
    | .error e => .error e
    | .ok s => .ok s.total

/-- One output as the scanner and the verifier read it; `none` is the throw of
`makePqPaymentProofTransaction` on a target that is not a well-formed `PqOutput`. -/
def proofOutput (i : Nat) (out : TransactionOutput) : Option PqScanOutput :=
  match out.target with
  | .pq po =>
    if pqOutputFieldsValid po then
      some ⟨UInt32.ofNat i, out.amount, toArray _ po.kemCt, po.encPayload, po.spendCommit⟩
    else none
  | _ => none

/-- mirrors PqTransactionBuilder.cpp:275-298 -/
def makePqPaymentProofTransaction (tx : Transaction) : Option PqPaymentProofTransaction :=
  ((List.range tx.outputs.length).mapM fun i => (tx.outputs[i]?).bind (proofOutput i)).map fun outputs =>
    ⟨getObjectHash W.toPrimitives tx, pqTransactionInputsHash W tx.toTransactionPrefix, outputs⟩

variable {W}

/-- The proof of a single output verifies with the output's amount when the output
commits to the recipient's key under the opening. -/
theorem verifyPqPaymentProof_single {genesisId : Hash} {tx : PqPaymentProofTransaction} {recipient : ResolvedRecipient}
    {entry : PqPaymentProofEntry} {output : PqScanOutput} (hget : tx.outputs[entry.outputIndex.toNat]? = some output)
    (hindex : output.outputIndex = entry.outputIndex)
    (hcommit : spendCommit W.toPrimitives recipient.spendPub entry.rho = output.spendCommit) :
    ∃ proof, makePqPaymentProof W genesisId tx.txid recipient [entry] = .ok proof ∧
      verifyPqPaymentProof W proof genesisId tx recipient = .ok output.amount := by
  refine ⟨⟨kPqPaymentProofVersion, genesisId, tx.txid, pqSpendAuthorityHash W recipient.spendPub, [entry]⟩, ?_, ?_⟩
  · simp [makePqPaymentProof, adjacentEqual, kMaxPqPaymentProofEntries]
  · have hstep : verifyEntry W tx recipient ⟨[], 0⟩ entry = .ok ⟨[entry.outputIndex.toNat], output.amount⟩ := by
      simp [verifyEntry, hget, hindex, hcommit]
    simp [verifyPqPaymentProof, kMaxPqPaymentProofEntries, foldSteps, hstep]

end

end Discrete.L6
