import Discrete.Core.Loop
import Discrete.L2Validation.PqDerive

/-!
# Transfer validation (`PqValidation.cpp`)

`checkPqTransactionSemantic` looks at one transaction alone;
`checkPqTransactionInputs` is handed the outputs its inputs reference and checks
ownership, balance, fee and signatures. One ML-DSA signature may authorize many
inputs: a key-reference input (`keyRef`) is covered by the signature of the
earlier input that carries its key.

Errors keep the source's texts (`PqError.text`). `badGet` is the
`boost::bad_get` that `pqUnsignedTx` throws on a variant it does not expect.
-/
namespace Discrete.L2
open L1 Codec

def maxPqInputsPerTx : Nat := 32
def maxPqOutputsPerTx : Nat := 64
def maxPqTxSize : Nat := 256 * 1024
def maxExtraSizePq : Nat := 4096
def txExtraFeeFreeBytes : Nat := 3200
def txExtraFeeChunkBytes : Nat := 100

/-- mirrors src/CryptoNoteConfig.h:117-126; the products stay far below 2^64 for
every fee and extra size in use, `%` is the wrap all the same. -/
def pqTxExtraSurcharge (minFee extraSize : Nat) : Nat :=
  if extraSize ≤ txExtraFeeFreeBytes then 0
  else minFee * ((extraSize - txExtraFeeFreeBytes + txExtraFeeChunkBytes - 1) / txExtraFeeChunkBytes) % 2 ^ 64

def pqTxFeeFloor (minFee extraSize : Nat) : Nat :=
  (minFee + pqTxExtraSurcharge minFee extraSize) % 2 ^ 64

inductive PqError where
  | notTransfer | emptySides | tooManyInputs | tooManyOutputs | unlockHeight
  | inputNotPq | inputFieldLength | refNotEarlier | refNamesRef | refKeyMismatch
  | tooManyKeyInputs | signatureCount | extraSize | outputNotPq | zeroAmount | outputFieldLength
  | txSize
  | resolvedSize | refsInactive | refNotEarlierInput | refNotKeyInput | missingOutput
  | notSpendable | spendCommit | duplicateNullifier | inputOverflow | outputOverflow
  | outputsExceedInputs | feeBelowMinimum | signature | badGet
  deriving DecidableEq, Repr

def PqError.text : PqError → String
  | .notTransfer => "not a PQ transfer subtype"
  | .emptySides => "TX_PQ with empty inputs or outputs"
  | .tooManyInputs => "too many PQ inputs"
  | .tooManyOutputs => "too many PQ outputs"
  | .unlockHeight => "PQ tx must have unlockHeight == 0"
  | .inputNotPq => "TX_PQ input is not a PqInput"
  | .inputFieldLength => "PqInput field has wrong length"
  | .refNotEarlier => "PqInput key reference does not name an earlier input"
  | .refNamesRef => "PqInput key reference names another key reference"
  | .refKeyMismatch => "PqInput key reference does not match the referenced key"
  | .tooManyKeyInputs => "too many key-carrying PQ inputs"
  | .signatureCount => "pqSignatures count must equal the key-carrying input count"
  | .extraSize => "tx_extra exceeds MAX_EXTRA_SIZE_PQ"
  | .outputNotPq => "TX_PQ output is not a PqOutput"
  | .zeroAmount => "PQ output with zero amount"
  | .outputFieldLength => "PqOutput field has wrong length"
  | .txSize => "PQ tx exceeds MAX_PQ_TX_SIZE"
  | .resolvedSize => "resolved inputs size mismatch"
  | .refsInactive => "key-reference inputs are not active at this height"
  | .refNotEarlierInput => "key reference does not name an earlier input"
  | .refNotKeyInput => "key reference does not match a key-carrying input"
  | .missingOutput => "referenced output does not exist"
  | .notSpendable => "referenced output is not spendable by a PQ input"
  | .spendCommit => "spend_commit mismatch"
  | .duplicateNullifier => "duplicate nullifier within transaction"
  | .inputOverflow => "input amount overflow"
  | .outputOverflow => "output amount overflow"
  | .outputsExceedInputs => "outputs exceed inputs"
  | .feeBelowMinimum => "fee below minimum"
  | .signature => "ML-DSA signature verification failed"
  | .badGet => "boost::bad_get: failed value get using boost::get"

def pqInputFieldsValid (inp : PqInput) : Bool :=
  decide (inp.authPub.length = pqAuthPubSize) && decide (inp.rhoReveal.length = pqRhoSize)

def pqOutputFieldsValid (o : PqOutput) : Bool :=
  decide (o.kemCt.length = pqKemCiphertextSize) && decide (o.encPayload.length = pqEncPayloadSize)

/-- `memcpy` of a vector into a fixed array. The callers have checked the
vector's length; a shorter one would be read past its end (zeros here). -/
def toArray (n : Nat) (v : Bytes) : Blob n :=
  ⟨(v ++ List.replicate n 0).take n, by simp⟩

theorem toArray_val {n : Nat} {v : Bytes} (h : v.length = n) : (toArray n v).val = v := by
  simp [toArray, ← h]

def toDsaPub (v : Bytes) : Blob pqAuthPubSize := toArray pqAuthPubSize v
def toRho (v : Bytes) : Blob pqRhoSize := toArray pqRhoSize v

/-! ## Unsigned form -/

def digestInput (pin : PqInput) : DigestInput :=
  ⟨pin.prevTxid, pin.prevOutIndex, toDsaPub pin.authPub, toRho pin.rhoReveal, pin.keyRef⟩

def digestOutput (amount unlockHeight : UInt64) (po : PqOutput) : DigestOutput :=
  ⟨0x10, amount, unlockHeight, toArray _ po.kemCt, toArray _ po.encPayload, po.spendCommit⟩

/-- `boost::get<PqInput>`, then the copy into a `DigestInput`. -/
def digestOfInput : TransactionInput → Option DigestInput
  | .pq pin => some (digestInput pin)
  | .base _ => none

/-- `boost::get<PqOutput>`, then the copy into a `DigestOutput`. -/
def digestOfOutput (out : TransactionOutput) : Option DigestOutput :=
  match out.target with
  | .pq po => some (digestOutput out.amount out.unlockHeight po)
  | _ => none

/-- `none` is the `boost::bad_get` of a `BaseInput` or a target that is not a `PqOutput`.
mirrors PqValidation.cpp:75-104 -/
def pqUnsignedTx (tx : Transaction) (fee : UInt64) : Option UnsignedTx := do
  let inputs ← tx.inputs.mapM digestOfInput
  let outputs ← tx.outputs.mapM digestOfOutput
  pure ⟨tx.version, tx.txType, tx.unlockHeight, inputs, outputs, tx.extra, fee⟩

/-- mirrors PqValidation.cpp:110-118 -/
def pqNullifier (P : Primitives) (inp : PqInput) : Hash :=
  if pqInputFieldsValid inp then
    nullifier P (toDsaPub inp.authPub) (toRho inp.rhoReveal) inp.prevTxid inp.prevOutIndex
  else nullHash

/-! ## Context-free check -/

/-- One turn of the input loop of `checkPqTransactionSemantic`. The earlier turns
have checked that the named input is a `PqInput`.
mirrors PqValidation.cpp:144-172 -/
def semanticInput (inputs : List TransactionInput) (i : Nat) : Except PqError Unit :=
  match inputs[i]? with
  | some (.pq inp) =>
    if ¬ pqInputFieldsValid inp then .error .inputFieldLength
    else if inp.keyRef = pqNoKeyRef then .ok ()
    else if inp.keyRef.toNat ≥ i then .error .refNotEarlier
    else
      match inputs[inp.keyRef.toNat]? with
      | some (.pq target) =>
        if target.keyRef ≠ pqNoKeyRef then .error .refNamesRef
        else if inp.authPub ≠ target.authPub then .error .refKeyMismatch
        else .ok ()
      | _ => .error .badGet
  | _ => .error .inputNotPq

/-- mirrors PqValidation.cpp:184-194 -/
def semanticOutput (out : TransactionOutput) : Except PqError Unit :=
  match out.target with
  | .pq po =>
    if out.amount = 0 then .error .zeroAmount
    else if ¬ pqOutputFieldsValid po then .error .outputFieldLength
    else .ok ()
  | _ => .error .outputNotPq

/-- mirrors PqValidation.cpp:127-200 -/
def checkPqTransactionSemantic (tx : Transaction) : Except PqError Unit :=
  if ¬ isPqTransfer tx.txType then .error .notTransfer
  else if tx.inputs = [] ∨ tx.outputs = [] then .error .emptySides
  else if tx.inputs.length > maxPqGroupedInputsPerTx then .error .tooManyInputs
  else if tx.outputs.length > maxPqOutputsPerTx then .error .tooManyOutputs
  else if tx.unlockHeight ≠ 0 then .error .unlockHeight
  else
    match forEach (semanticInput tx.inputs) (List.range tx.inputs.length) with
    | .error e => .error e
    | .ok () =>
      let keyInputs := pqSignatureCount tx.inputs
      if keyInputs > maxPqInputsPerTx then .error .tooManyKeyInputs
      else if tx.pqSignatures.length ≠ keyInputs then .error .signatureCount
      else if tx.extra.length > maxExtraSizePq then .error .extraSize
      else
        match forEach semanticOutput tx.outputs with
        | .error e => .error e
        | .ok () => if (toBinaryArray tx).length > maxPqTxSize then .error .txSize else .ok ()

/-! ## Check against the referenced outputs -/

structure PqResolvedInput where
  spendCommit : Hash
  amount : UInt64
  present : Bool
  isPqOutput : Bool
  deriving DecidableEq

structure PqSigningContext where
  useV2 : Bool
  chainId : Hash
  groupedAuth : Bool
  deriving DecidableEq

/-- One turn of the authorization-structure loop.
mirrors PqValidation.cpp:387-407 -/
def structureInput (keyRefsAllowed : Bool) (inputs : List TransactionInput) (i : Nat) : Except PqError Unit :=
  match inputs[i]? with
  | some (.pq inp) =>
    if inp.keyRef = pqNoKeyRef then .ok ()
    else if ¬ keyRefsAllowed then .error .refsInactive
    else if inp.keyRef.toNat ≥ i then .error .refNotEarlierInput
    else
      match inputs[inp.keyRef.toNat]? with
      | some (.pq target) =>
        if target.keyRef ≠ pqNoKeyRef ∨ target.authPub ≠ inp.authPub then .error .refNotKeyInput
        else .ok ()
      | _ => .error .badGet
  | _ => .error .inputNotPq

/-- `signers`: the indices of the key-carrying inputs, in order. -/
def signers (inputs : List TransactionInput) : List Nat :=
  (List.range inputs.length).filter fun i => ((inputs[i]?).map TransactionInput.carriesKey).getD false

/-- The nullifiers computed so far and the running input sum. -/
structure InputScan where
  computed : List Hash
  sumIn : UInt64

/-- One turn of the ownership loop.
mirrors PqValidation.cpp:416-457 -/
def scanInput (P : Primitives) (s : InputScan) (x : TransactionInput × PqResolvedInput) :
    Except PqError InputScan :=
  match x.1 with
  | .base _ => .error .inputNotPq
  | .pq inp =>
    if ¬ pqInputFieldsValid inp then .error .inputFieldLength
    else if ¬ x.2.present then .error .missingOutput
    else if ¬ x.2.isPqOutput then .error .notSpendable
    else if spendCommit P (toDsaPub inp.authPub) (toRho inp.rhoReveal) ≠ x.2.spendCommit then
      .error .spendCommit
    else if pqNullifier P inp ∈ s.computed then .error .duplicateNullifier
    else if s.sumIn + x.2.amount < s.sumIn then .error .inputOverflow
    else .ok ⟨s.computed ++ [pqNullifier P inp], s.sumIn + x.2.amount⟩

/-- mirrors PqValidation.cpp:459-465 -/
def addOutput (sumOut : UInt64) (out : TransactionOutput) : Except PqError UInt64 :=
  if sumOut + out.amount < sumOut then .error .outputOverflow else .ok (sumOut + out.amount)

/-- mirrors PqValidation.cpp:502-510 -/
def verifySigner (P : Primitives) (tx : Transaction) (x : Nat × Hash × Blob pqSignatureSize) :
    Except PqError Unit :=
  match tx.inputs[x.1]? with
  | some (.pq inp) =>
    if P.dsaVerify (toDsaPub inp.authPub) x.2.1.val x.2.2 then .ok () else .error .signature
  | _ => .error .badGet

/-- One digest per signer: the position-bound ones of version 2, or the one
digest of version 1 for all.
mirrors PqValidation.cpp:497-500 -/
def signingDigests (P : Primitives) (signing : PqSigningContext) (u : UnsignedTx) (signers : List Nat) : List Hash :=
  if signing.useV2 then txSigningDigestsV2 P u signing.chainId (signers.map UInt32.ofNat)
  else List.replicate signers.length (txSigningDigest P u)

/-- The tail of the check, once the sums are known. -/
def checkFeeAndSignatures (P : Primitives) (tx : Transaction) (minFee : Nat) (signing : PqSigningContext)
    (sumIn sumOut : UInt64) : Except PqError Unit :=
  if sumIn < sumOut then .error .outputsExceedInputs
  else
    let fee := sumIn - sumOut
    if minFee ≠ 0 ∧ fee.toNat < pqTxFeeFloor minFee tx.extra.length then .error .feeBelowMinimum
    else
      match pqUnsignedTx tx fee with
      | none => .error .badGet
      | some u =>
        forEach (verifySigner P tx)
          ((signers tx.inputs).zip ((signingDigests P signing u (signers tx.inputs)).zip tx.pqSignatures))

/-- Returns the nullifiers of the inputs.
mirrors PqValidation.cpp:367-516 -/
def checkPqTransactionInputs (P : Primitives) (tx : Transaction) (resolved : List PqResolvedInput)
    (minFee : Nat) (signing : PqSigningContext) : Except PqError (List Hash) :=
  if resolved.length ≠ tx.inputs.length then .error .resolvedSize
  else
    match forEach (structureInput (signing.groupedAuth && signing.useV2) tx.inputs)
        (List.range tx.inputs.length) with
    | .error e => .error e
    | .ok () =>
      if tx.pqSignatures.length ≠ (signers tx.inputs).length then .error .signatureCount
      else
        match foldSteps (scanInput P) ⟨[], 0⟩ (tx.inputs.zip resolved) with
        | .error e => .error e
        | .ok scan =>
          match foldSteps addOutput 0 tx.outputs with
          | .error e => .error e
          | .ok sumOut =>
            match checkFeeAndSignatures P tx minFee signing scan.sumIn sumOut with
            | .error e => .error e
            | .ok () => .ok scan.computed

/-! ## What acceptance says -/

/-- A reference names an earlier input that carries the key it holds. -/
def RefOk (inputs : List TransactionInput) (i : Nat) (inp : PqInput) : Prop :=
  inp.keyRef = pqNoKeyRef ∨ (inp.keyRef.toNat < i ∧ ∃ target, inputs[inp.keyRef.toNat]? = some (.pq target) ∧
      target.keyRef = pqNoKeyRef ∧ target.authPub = inp.authPub)

theorem semanticInput_ok {inputs : List TransactionInput} {i : Nat} :
    semanticInput inputs i = .ok () ↔
      ∃ inp, inputs[i]? = some (.pq inp) ∧ pqInputFieldsValid inp = true ∧ RefOk inputs i inp := by
  unfold semanticInput RefOk
  cases hi : inputs[i]? with
  | none => simp
  | some t =>
    cases t with
    | base b => simp
    | pq inp =>
      simp only [Option.some.injEq, TransactionInput.pq.injEq, exists_eq_left']
      by_cases hf : pqInputFieldsValid inp = true
      · rw [if_neg (by simp [hf])]
        by_cases hno : inp.keyRef = pqNoKeyRef
        · simp [hf, hno]
        · rw [if_neg hno]
          by_cases hlt : inp.keyRef.toNat < i
          · rw [if_neg (by omega)]
            cases ht : inputs[inp.keyRef.toNat]? with
            | none => simp [hno]
            | some t =>
              cases t with
              | base b => simp [hno]
              | pq target =>
                by_cases htk : target.keyRef = pqNoKeyRef
                · by_cases hk : inp.authPub = target.authPub
                  · simp [htk, hk, hf, hlt]
                  · have hk' : ¬ target.authPub = inp.authPub := fun e => hk e.symm
                    simp [htk, hk, hk', hno]
                · simp [htk, hno]
          · rw [if_pos (by omega)]
            simp [hno, hlt]
      · rw [if_pos (by simpa using hf)]
        simp [hf]

theorem structureInput_ok {allowed : Bool} {inputs : List TransactionInput} {i : Nat} :
    structureInput allowed inputs i = .ok () ↔ ∃ inp, inputs[i]? = some (.pq inp) ∧ RefOk inputs i inp ∧
        (inp.keyRef = pqNoKeyRef ∨ allowed = true) := by
  unfold structureInput RefOk
  cases hi : inputs[i]? with
  | none => simp
  | some t =>
    cases t with
    | base b => simp
    | pq inp =>
      simp only [Option.some.injEq, TransactionInput.pq.injEq, exists_eq_left']
      by_cases hno : inp.keyRef = pqNoKeyRef
      · simp [hno]
      · rw [if_neg hno]
        by_cases ha : allowed = true
        · rw [if_neg (by simp [ha])]
          by_cases hlt : inp.keyRef.toNat < i
          · rw [if_neg (by omega)]
            cases ht : inputs[inp.keyRef.toNat]? with
            | none => simp [hno]
            | some t =>
              cases t with
              | base b => simp [hno]
              | pq target => simp [hno, hlt, ha]
          · rw [if_pos (by omega)]
            simp [hno, hlt]
        · rw [if_pos (by simpa using ha)]
          simp [hno, ha]

theorem semanticOutput_ok {out : TransactionOutput} :
    semanticOutput out = .ok () ↔ ∃ po, out.target = .pq po ∧ out.amount ≠ 0 ∧ pqOutputFieldsValid po = true := by
  unfold semanticOutput
  cases ht : out.target with
  | key k => simp
  | coinbase o => simp
  | pq po =>
    by_cases ha : out.amount = 0
    · simp [ha]
    · by_cases hf : pqOutputFieldsValid po = true <;> simp [ha, hf]

/-- Everything `checkPqTransactionSemantic` has checked when it accepts. -/
structure SemanticOk (tx : Transaction) : Prop where
  transfer : isPqTransfer tx.txType = true
  inputs_ne : tx.inputs ≠ []
  outputs_ne : tx.outputs ≠ []
  inputs_le : tx.inputs.length ≤ maxPqGroupedInputsPerTx
  outputs_le : tx.outputs.length ≤ maxPqOutputsPerTx
  unlock : tx.unlockHeight = 0
  inputs : ∀ i < tx.inputs.length, ∃ inp, tx.inputs[i]? = some (.pq inp) ∧
    pqInputFieldsValid inp = true ∧ RefOk tx.inputs i inp
  keys_le : pqSignatureCount tx.inputs ≤ maxPqInputsPerTx
  sigs : tx.pqSignatures.length = pqSignatureCount tx.inputs
  extra_le : tx.extra.length ≤ maxExtraSizePq
  outputs : ∀ out ∈ tx.outputs, ∃ po, out.target = .pq po ∧ out.amount ≠ 0 ∧ pqOutputFieldsValid po = true
  size_le : (toBinaryArray tx).length ≤ maxPqTxSize

theorem SemanticOk.of_ok {tx : Transaction} (h : checkPqTransactionSemantic tx = .ok ()) : SemanticOk tx := by
  unfold checkPqTransactionSemantic at h
  split at h; · cases h
  split at h; · cases h
  split at h; · cases h
  split at h; · cases h
  split at h; · cases h
  rename_i h1 h2 h3 h4 h5
  split at h; · cases h
  rename_i h6
  dsimp only at h
  split at h; · cases h
  split at h; · cases h
  split at h; · cases h
  rename_i h7 h8 h9
  split at h; · cases h
  rename_i h10
  split at h; · cases h
  rename_i h11
  have h2 := not_or.mp h2
  exact
    { transfer := by simpa using h1
      inputs_ne := h2.1
      outputs_ne := h2.2
      inputs_le := by omega
      outputs_le := by omega
      unlock := by simpa using h5
      inputs := fun i hi => semanticInput_ok.mp (forEach_ok.mp h6 i (List.mem_range.mpr hi))
      keys_le := by omega
      sigs := by omega
      extra_le := by omega
      outputs := fun out hout => semanticOutput_ok.mp (forEach_ok.mp h10 out hout)
      size_le := by omega }

theorem SemanticOk.pq {tx : Transaction} (h : SemanticOk tx) {t : TransactionInput} (ht : t ∈ tx.inputs) :
    ∃ inp, t = .pq inp ∧ pqInputFieldsValid inp = true := by
  obtain ⟨i, hi, rfl⟩ := List.getElem_of_mem ht
  obtain ⟨inp, hget, hf, -⟩ := h.inputs i hi
  rw [List.getElem?_eq_getElem hi, Option.some.injEq] at hget
  exact ⟨inp, hget, hf⟩

end Discrete.L2
