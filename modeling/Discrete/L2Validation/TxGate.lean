import Mathlib.Data.UInt
import Discrete.L1Encoding.TxExtra
import Discrete.L2Validation.InputChecks

/-!
# Free registrations and the relay gate (`PqValidation.cpp`, `Core.cpp`)

`check_tx_semantic` is what every transaction passes before it reaches the
memory pool, from the network, from RPC or inside a block: transfers go through
`checkPqTransactionSemantic`, free registrations through
`checkFreeRegTransactionShape`, every other type of version 1 is refused. The
legacy branch is for version 0, which the wire format does not admit.

`GateOk.of_true`: what a transaction of the current version looks like behind the
gate.
-/
namespace Discrete.L2
open L1 Codec

/-- What the node links against besides hashes and signatures: the memory-hard
hash of registrations, the block id and the block's proof-of-work hash. The last
two are functions of the block alone; a block without a valid miner signature has
no proof of work. -/
structure NodePrimitives extends Primitives where
  ySlowHash : Bytes → Option Hash
  getBlockHash : Block → Hash
  prevalidateBlockProofOfWork : Block → Option Hash

/-! ## Free registrations -/

inductive FreeRegError where
  | notFreeReg | sides | signatures | unlockHeight | malformedExtra | unexpectedField | fieldCounts
  | powNotLast | missingTag | pow
  deriving DecidableEq, Repr

def FreeRegError.text : FreeRegError → String
  | .notFreeReg => "not a TX_FREE_REG subtype"
  | .sides => "TX_FREE_REG must have no inputs or outputs"
  | .signatures => "TX_FREE_REG must not carry pqSignatures"
  | .unlockHeight => "TX_FREE_REG must have unlockHeight == 0"
  | .malformedExtra => "TX_FREE_REG: malformed tx_extra"
  | .unexpectedField => "TX_FREE_REG: unexpected tx_extra field"
  | .fieldCounts => "TX_FREE_REG must have exactly one registration and one PoW tag"
  | .powNotLast => "TX_FREE_REG: PoW tag is not the final tx_extra field"
  | .missingTag => "TX_FREE_REG: missing registration or PoW tag"
  | .pow => "TX_FREE_REG: anti-spam PoW not satisfied"

/-- A registration or a proof-of-work tag. -/
def isFreeRegField (f : ExtraField) : Bool := f.pqAccountRegistration?.isSome || f.pow?.isSome

/-- mirrors PqValidation.cpp:279-317 -/
def checkFreeRegTransactionShape (tx : Transaction) : Except FreeRegError Unit :=
  if tx.txType ≠ txFreeReg then .error .notFreeReg
  else if tx.inputs ≠ [] ∨ tx.outputs ≠ [] then .error .sides
  else if tx.pqSignatures ≠ [] then .error .signatures
  else if tx.unlockHeight ≠ 0 then .error .unlockHeight
  else
    match parseTransactionExtra tx.extra with
    | none => .error .malformedExtra
    | some fields =>
      if ¬ fields.all isFreeRegField then .error .unexpectedField
      else if (fields.filterMap ExtraField.pqAccountRegistration?).length ≠ 1 ∨
          (fields.filterMap ExtraField.pow?).length ≠ 1 then .error .fieldCounts
      else if ¬ isPowTagLastField tx.extra then .error .powNotLast
      else .ok ()

/-- "discrete-pq-free-reg-pow-v1" -/
def freeRegPowDomain : Bytes := domainTag
  ['d', 'i', 's', 'c', 'r', 'e', 't', 'e', '-', 'p', 'q', '-', 'f', 'r', 'e', 'e', '-', 'r', 'e', 'g',
   '-', 'p', 'o', 'w', '-', 'v', '1']

/-- The leading eight bytes of the hash, big-endian, against the target.
mirrors PqValidation.cpp:200-232 -/
def checkFreeRegPow (N : NodePrimitives) (reg : ExtraPqAccountRegistration) (pow : ExtraPow)
    (target : UInt64) : Bool :=
  match N.ySlowHash (freeRegPowDomain ++ reg.viewPub.val ++ reg.spendPub.val ++ pow.refBlockHash.val ++
      le64 pow.nonce) with
  | none => false
  | some h => decide (leValue (h.val.take 8).reverse ≤ target.toNat)

/-- mirrors PqValidation.cpp:327-340 -/
def checkFreeRegTransactionPow (N : NodePrimitives) (tx : Transaction) (powTarget : UInt64) :
    Except FreeRegError Unit :=
  match getPqAccountRegistrationFromExtra tx.extra, getPowTagFromExtra tx.extra with
  | some reg, some pow => if checkFreeRegPow N reg pow powTarget then .ok () else .error .pow
  | _, _ => .error .missingTag

/-! ## Amounts and types (`CryptoNoteFormatUtils.cpp`) -/

/-- `get_outs_money_amount` and `getOutputAmount`: the sum wraps.
mirrors CryptoNoteFormatUtils.cpp:191-197 -/
def getOutputAmount (tx : Transaction) : UInt64 := (tx.outputs.map TransactionOutput.amount).sum

/-- Inputs carry no amount.
mirrors CryptoNoteTools.cpp:46-49 -/
def getInputAmount (_ : Transaction) : UInt64 := 0

/-- mirrors CryptoNoteFormatUtils.cpp:118-128 -/
def checkInputsTypesSupported (tx : TransactionPrefix) : Bool :=
  let pqInputs := decide (tx.version ≥ transactionVersion1) && isPqTransfer tx.txType
  tx.inputs.all fun t => t.pq?.isSome == pqInputs

/-- One turn of `check_outs_overflow`. -/
def addOutMoney (money : UInt64) (o : TransactionOutput) : Except Unit UInt64 :=
  if money > o.amount + money then .error () else .ok (money + o.amount)

/-- mirrors CryptoNoteFormatUtils.cpp:181-189 -/
def checkOutsOverflow (tx : TransactionPrefix) : Bool := (foldSteps addOutMoney 0 tx.outputs).isOk

/-- mirrors CryptoNoteFormatUtils.cpp:130-170 -/
def checkOutsValid (tx : TransactionPrefix) : Bool :=
  tx.outputs.all fun out =>
    decide (tx.version ≥ transactionVersion1) &&
      match out.target with
      | .pq _ => isPqTransfer tx.txType && decide (out.amount ≠ 0)
      | .coinbase _ => decide (tx.txType = txCoinbase) && decide (out.amount ≠ 0)
      | .key _ => false

/-- mirrors Core.cpp:453-465 -/
def checkTxInputsKeyimagesDiff (P : Primitives) (tx : Transaction) : Bool :=
  decide (tx.pqInputs.map (pqNullifier P)).Nodup

/-! ## The gate -/

/-- mirrors Core.cpp:362-451 -/
def checkTxSemantic (P : Primitives) (tx : Transaction) (keptByBlock : Bool) : Bool :=
  if tx.version ≥ transactionVersion1 then
    if isPqTransfer tx.txType then (checkPqTransactionSemantic tx).isOk
    else if tx.txType = txFreeReg then
      (checkFreeRegTransactionShape tx).isOk && (keptByBlock || isCanonicalFreeRegExtra tx.extra)
    else false
  else
    decide (tx.inputs ≠ []) && checkInputsTypesSupported tx.toTransactionPrefix &&
      checkOutsValid tx.toTransactionPrefix && checkOutsOverflow tx.toTransactionPrefix &&
      decide (getOutputAmount tx ≤ getInputAmount tx) && checkTxInputsKeyimagesDiff P tx &&
      ((getAccountRegistrationFromExtra tx.extra).isNone || isWellFormedAccountRegistration tx.extra)

/-- What is known of a transaction of version 1 that passed the gate. -/
inductive GateOk (tx : Transaction) : Prop where
  | transfer : SemanticOk tx → GateOk tx
  | freeReg : tx.txType = txFreeReg → tx.inputs = [] → tx.outputs = [] → GateOk tx

theorem isOk_iff {ε : Type} {x : Except ε Unit} : x.isOk = true ↔ x = .ok () := by
  cases x with
  | error e => simp [Except.isOk, Except.toBool]
  | ok u => simp [Except.isOk, Except.toBool]

theorem GateOk.of_true {P : Primitives} {tx : Transaction} {kept : Bool}
    (hv : tx.version = transactionVersion1) (h : checkTxSemantic P tx kept = true) : GateOk tx := by
  unfold checkTxSemantic at h
  rw [if_pos (by rw [hv]; decide)] at h
  split at h
  · exact .transfer (SemanticOk.of_ok (isOk_iff.mp h))
  · split at h
    · rename_i htype
      rw [Bool.and_eq_true] at h
      have hshape := isOk_iff.mp h.1
      unfold checkFreeRegTransactionShape at hshape
      split at hshape; · cases hshape
      split at hshape; · cases hshape
      rename_i hsides
      simp only [not_or, not_not] at hsides
      exact .freeReg htype hsides.1 hsides.2
    · cases h

/-- Nothing behind the gate has the type of a coinbase. -/
theorem GateOk.not_coinbase {tx : Transaction} (h : GateOk tx) : tx.txType ≠ txCoinbase := by
  intro e
  cases h with
  | transfer hs =>
    have := hs.transfer
    rw [e] at this
    exact absurd this (by decide)
  | freeReg ht _ _ =>
    rw [e] at ht
    exact absurd ht (by decide)

theorem checkOutsOverflow_sum {l : List TransactionOutput} {s t : UInt64} (h : foldSteps addOutMoney s l = .ok t) :
    t.toNat = s.toNat + (l.map fun o => o.amount.toNat).sum := by
  induction l generalizing s with
  | nil =>
    simp only [foldSteps_nil, Except.ok.injEq] at h
    subst h
    simp
  | cons o l ih =>
    obtain ⟨s', h1, h2⟩ := foldSteps_cons_ok.mp h
    unfold addOutMoney at h1
    split at h1; · cases h1
    rename_i hlt
    simp only [Except.ok.injEq] at h1
    subst h1
    have hadd : (s + o.amount).toNat = s.toNat + o.amount.toNat := by
      rw [UInt64.add_comm] at hlt
      exact toNat_add_of_not_lt hlt
    rw [ih h2, hadd, List.map_cons, List.sum_cons]
    omega

end Discrete.L2
