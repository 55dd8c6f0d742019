import Discrete.L2Validation.PqValidation

/-!
# The two encodings of a transfer

A transfer that passes `checkPqTransactionSemantic` has a wire form and a signing
transcript. Both determine it:

* `transactionWire_canonical`: the wire format is canonical, and a transfer the
  semantic check accepts survives the wire unchanged. The check does not look at
  `version`, which the serializer insists on, so that is a separate premise
  (`transferWrongVersion_lost`: one that passes the check and does not survive).
* `signingTranscriptV2_binds`: equal version-2 transcripts come from the same
  chain, signing input, fee and serialized prefix.
-/
namespace Discrete.L2
open L1 Codec

/-- mirrors CryptoNoteTools.h:89-99,115-120 -/
def getObjectHash (P : Primitives) (tx : Transaction) : Hash :=
  if (serializeTransaction tx).ok then P.cnFastHash (serializeTransaction tx).bytes else nullHash

/-- The transaction and its id, as computed from the blob.
mirrors CryptoNoteFormatUtils.cpp:55-64 -/
def parseAndValidateTransactionFromBinaryArray (P : Primitives) (txBlob : Bytes) : Option (Transaction × Hash) :=
  (fromBinaryArray txBlob).map fun tx => (tx, P.cnFastHash txBlob)

/-! ## Wire form -/

theorem serializeInput_ok_of_fields {inp : PqInput} (h : pqInputFieldsValid inp = true) :
    (serializeInput (.pq inp)).ok = true := by
  simp only [pqInputFieldsValid, Bool.and_eq_true, decide_eq_true_eq] at h
  simp only [serializeInput, serializePqInput, Out.andThen_ok, Out.put_ok, Bool.true_and,
    serializePqBlob_ok, h.2, decide_true, Bool.and_true]
  split
  · simp [h.1]
  · rfl

theorem serializeOutput_ok_of_fields {out : TransactionOutput} {po : PqOutput} (ht : out.target = .pq po)
    (h : pqOutputFieldsValid po = true) : (serializeOutput out).ok = true := by
  simp only [pqOutputFieldsValid, Bool.and_eq_true, decide_eq_true_eq] at h
  simp [serializeOutput, serializeTarget, ht, h.1, h.2]

/-- The reader's test, from the rule the two checks share. -/
theorem RefOk.keyRefOk {inputs : List TransactionInput} {i : Nat} {inp : PqInput}
    (hcap : inputs.length ≤ maxPqGroupedInputsPerTx) (hget : inputs[i]? = some (.pq inp)) (href : RefOk inputs i inp) :
    keyRefOk inputs i = true := by
  unfold L1.keyRefOk
  rw [hget]
  rcases href with hno | ⟨hlt, target, ht, htk, -⟩
  · simp [PqInput.carriesKey, hno]
  · simp [hcap, hlt, ht, TransactionInput.carriesKey, PqInput.carriesKey, htk]

/-- The reader fills in the key the input already holds. -/
theorem RefOk.fillKey {inputs : List TransactionInput} {i : Nat} {inp : PqInput} (href : RefOk inputs i inp) :
    fillKey inputs (.pq inp) = .pq inp := by
  rcases href with hno | ⟨-, target, hj, -, hkey⟩
  · simp [L1.fillKey, hno]
  · simp only [L1.fillKey, hj, hkey]
    split <;> rfl

theorem SemanticOk.fillKey {tx : Transaction} (h : SemanticOk tx) {t : TransactionInput} (ht : t ∈ tx.inputs) :
    fillKey tx.inputs t = t := by
  obtain ⟨i, hi, rfl⟩ := List.getElem_of_mem ht
  obtain ⟨inp, hget, -, href⟩ := h.inputs i hi
  rw [List.getElem?_eq_getElem hi, Option.some.injEq] at hget
  rw [hget]
  exact href.fillKey

/-- What the semantic check accepts, with the version the format requires, is
ready for the wire. -/
theorem SemanticOk.wireReady {tx : Transaction} (h : SemanticOk tx) (hv : tx.version = transactionVersion1) :
    WireReady tx where
  ok := by
    have hin : ∀ t ∈ tx.inputs, (serializeInput t).ok = true := by
      intro t ht
      obtain ⟨inp, rfl, hf⟩ := h.pq ht
      exact serializeInput_ok_of_fields hf
    have hout : ∀ out ∈ tx.outputs, (serializeOutput out).ok = true := by
      intro out hmem
      obtain ⟨po, hpo, -, hf⟩ := h.outputs out hmem
      exact serializeOutput_ok_of_fields hpo hf
    simp [serializeTransaction, serializePrefix, hv, serializeContainer, Out.each_ok.mpr hin, Out.each_ok.mpr hout]
  refs := fun i hi => by
    obtain ⟨inp, hget, -, href⟩ := h.inputs i hi
    exact href.keyRefOk h.inputs_le hget
  keys := fun _ ht => h.fillKey ht
  sigs := h.sigs
  inputs_lt := Nat.lt_of_le_of_lt h.inputs_le (by decide)
  outputs_lt := Nat.lt_of_le_of_lt h.outputs_le (by decide)
  extra_le := Nat.le_trans h.extra_le (by decide)

/-- Decoding is canonical, so the id computed from a blob is the id of the
transaction it decodes to; and a version-1 transfer that passes the semantic
check decodes from its own encoding, reference inputs included. -/
theorem transactionWire_canonical (P : Primitives) :
    (∀ s tx, fromBinaryArray s = some tx → toBinaryArray tx = s ∧ getObjectHash P tx = P.cnFastHash s ∧
        ∀ s', fromBinaryArray s' = some tx → s' = s) ∧
    (∀ tx, checkPqTransactionSemantic tx = .ok () → tx.version = transactionVersion1 →
      fromBinaryArray (toBinaryArray tx) = some tx) := by
  refine ⟨fun s tx h => ?_, fun tx h hv => ?_⟩
  · obtain ⟨hok, e⟩ := toBinaryArray_fromBinaryArray h
    refine ⟨e, ?_, fun s' h' => ?_⟩
    · rw [getObjectHash, if_pos hok, ← toBinaryArray, e]
    · rw [← (toBinaryArray_fromBinaryArray h').2, e]
  · exact fromBinaryArray_toBinaryArray ((SemanticOk.of_ok h).wireReady hv)

/-- A transfer with one input, one output, one signature, all of zeros. -/
def zeroTransfer (version : UInt8) (fee : UInt64) : Transaction where
  version := version
  txType := txPq
  unlockHeight := 0
  inputs := [.pq ⟨nullHash, 0, List.replicate pqAuthPubSize 0, List.replicate pqRhoSize 0, pqNoKeyRef⟩]
  outputs := [⟨fee, 0, .pq ⟨List.replicate pqKemCiphertextSize 0, List.replicate pqEncPayloadSize 0, nullHash⟩⟩]
  extra := []
  pqSignatures := [⟨List.replicate pqSignatureSize 0, List.length_replicate⟩]

/-- Version 2 passes the semantic check, but the serializer stops right after the
version and nothing reads back. -/
theorem transferWrongVersion_lost :
    checkPqTransactionSemantic (zeroTransfer 2 1) = .ok () ∧
      fromBinaryArray (toBinaryArray (zeroTransfer 2 1)) ≠ some (zeroTransfer 2 1) := by
  decide +kernel

/-- Primitives for fixed-input runs: hashes that return zeros, a verifier that accepts. -/
def zeroPrimitives : Primitives where
  sha3_256 := fun _ => nullHash
  cnFastHash := fun _ => nullHash
  dsaVerify := fun _ _ _ => true

theorem zeroTransfer_semantic : checkPqTransactionSemantic (zeroTransfer 1 1) = .ok () := by
  decide +kernel

theorem zeroTransfer_roundTrip :
    fromBinaryArray (toBinaryArray (zeroTransfer 1 1)) = some (zeroTransfer 1 1) ∧
      getObjectHash zeroPrimitives (zeroTransfer 1 1) = nullHash := by
  have h := (transactionWire_canonical zeroPrimitives).2 (zeroTransfer 1 1) zeroTransfer_semantic rfl
  exact ⟨h, ((transactionWire_canonical zeroPrimitives).1 _ _ h).2.1⟩

/-! ## Signing transcript -/

theorem digestInput_inj {a b : PqInput} (ha : pqInputFieldsValid a = true)
    (hb : pqInputFieldsValid b = true) (h : digestInput a = digestInput b) : a = b := by
  simp only [pqInputFieldsValid, Bool.and_eq_true, decide_eq_true_eq] at ha hb
  simp only [digestInput, DigestInput.mk.injEq] at h
  obtain ⟨h1, h2, h3, h4, h5⟩ := h
  have h3 := congrArg Subtype.val h3
  have h4 := congrArg Subtype.val h4
  rw [toDsaPub, toDsaPub, toArray_val ha.1, toArray_val hb.1] at h3
  rw [toRho, toRho, toArray_val ha.2, toArray_val hb.2] at h4
  cases a; cases b
  simp only at h1 h2 h3 h4 h5
  rw [h1, h2, h3, h4, h5]

theorem digestOfInput_inj (t t' : TransactionInput) (x : DigestInput)
    (ht : ∃ inp, t = .pq inp ∧ pqInputFieldsValid inp = true)
    (ht' : ∃ inp, t' = .pq inp ∧ pqInputFieldsValid inp = true)
    (h : digestOfInput t = some x) (h' : digestOfInput t' = some x) : t = t' := by
  obtain ⟨a, rfl, ha⟩ := ht
  obtain ⟨b, rfl, hb⟩ := ht'
  simp only [digestOfInput, Option.some.injEq] at h h'
  rw [digestInput_inj ha hb (h.trans h'.symm)]

theorem digestOfOutput_inj (o o' : TransactionOutput) (x : DigestOutput)
    (ho : ∃ po, o.target = .pq po ∧ pqOutputFieldsValid po = true)
    (ho' : ∃ po, o'.target = .pq po ∧ pqOutputFieldsValid po = true)
    (h : digestOfOutput o = some x) (h' : digestOfOutput o' = some x) : o = o' := by
  obtain ⟨a, ea, ha⟩ := ho
  obtain ⟨b, eb, hb⟩ := ho'
  simp only [pqOutputFieldsValid, Bool.and_eq_true, decide_eq_true_eq] at ha hb
  simp only [digestOfOutput, ea, eb, Option.some.injEq] at h h'
  have e := h.trans h'.symm
  simp only [digestOutput, DigestOutput.mk.injEq, true_and] at e
  obtain ⟨h1, h2, h3, h4, h5⟩ := e
  have h3 := congrArg Subtype.val h3
  have h4 := congrArg Subtype.val h4
  rw [toArray_val ha.1, toArray_val hb.1] at h3
  rw [toArray_val ha.2, toArray_val hb.2] at h4
  cases o; cases o'; cases a; cases b
  simp only at h1 h2 h3 h4 h5 ea eb
  rw [h1, h2, ea, eb, h3, h4, h5]

/-- The unsigned form of an accepted transfer exists and has sizes that fit the
transcript's counts. -/
theorem SemanticOk.unsigned {tx : Transaction} (h : SemanticOk tx) (fee : UInt64) :
    ∃ u ins outs, pqUnsignedTx tx fee = some u ∧ tx.inputs.mapM digestOfInput = some ins ∧
      tx.outputs.mapM digestOfOutput = some outs ∧
      u = ⟨tx.version, tx.txType, tx.unlockHeight, ins, outs, tx.extra, fee⟩ ∧ u.Sized := by
  obtain ⟨ins, hins⟩ := mapM_isSome (f := digestOfInput) (l := tx.inputs) fun t ht => by
    obtain ⟨inp, rfl, -⟩ := h.pq ht
    rfl
  obtain ⟨outs, houts⟩ := mapM_isSome (f := digestOfOutput) (l := tx.outputs) fun out ho => by
    obtain ⟨po, e, -, -⟩ := h.outputs out ho
    simp [digestOfOutput, e]
  refine ⟨_, ins, outs, ?_, hins, houts, rfl, ?_, ?_, ?_⟩
  · simp [pqUnsignedTx, hins, houts]
  · rw [mapM_length hins]
    exact Nat.lt_of_le_of_lt h.inputs_le (by decide)
  · rw [mapM_length houts]
    exact Nat.lt_of_le_of_lt h.outputs_le (by decide)
  · exact Nat.lt_of_le_of_lt h.extra_le (by decide)

/-- Two accepted transfers with the same version-2 transcript agree on the chain,
the signing input, the fee and the whole serialized prefix; and no version-1
transcript is a version-2 one. -/
theorem signingTranscriptV2_binds {tx tx' : Transaction} (h : checkPqTransactionSemantic tx = .ok ())
    (h' : checkPqTransactionSemantic tx' = .ok ()) (fee fee' : UInt64) (c c' : Hash) (i i' : UInt32) :
    ∃ u u', pqUnsignedTx tx fee = some u ∧ pqUnsignedTx tx' fee' = some u' ∧
      (txSigningPreimageV2 u c i = txSigningPreimageV2 u' c' i' → c = c' ∧ i = i' ∧ fee = fee' ∧
          prefixToBinaryArray tx.toTransactionPrefix = prefixToBinaryArray tx'.toTransactionPrefix) ∧
      txSigningPreimage u ≠ txSigningPreimageV2 u' c' i' := by
  have hs := SemanticOk.of_ok h
  have hs' := SemanticOk.of_ok h'
  obtain ⟨u, ins, outs, hu, hin, hout, rfl, hsized⟩ := hs.unsigned fee
  obtain ⟨u', ins', outs', hu', hin', hout', rfl, hsized'⟩ := hs'.unsigned fee'
  refine ⟨_, _, hu, hu', fun e => ?_, txSigningPreimage_ne_V2 _ _ _ _⟩
  obtain ⟨hc, hi, htx⟩ := txSigningPreimageV2_inj hsized hsized' e
  simp only [UnsignedTx.mk.injEq] at htx
  obtain ⟨hv, ht, hu, rfl, rfl, he, hf⟩ := htx
  refine ⟨hc, hi, hf, ?_⟩
  have hins := mapM_inj digestOfInput_inj (fun t ht => hs.pq ht) (fun t ht => hs'.pq ht) hin hin'
  have houts := mapM_inj digestOfOutput_inj
    (fun o ho => by obtain ⟨po, e, -, hf⟩ := hs.outputs o ho; exact ⟨po, e, hf⟩)
    (fun o ho => by obtain ⟨po, e, -, hf⟩ := hs'.outputs o ho; exact ⟨po, e, hf⟩) hout hout'
  have hp : tx.toTransactionPrefix = tx'.toTransactionPrefix := by
    obtain ⟨p, s⟩ := tx
    obtain ⟨p', s'⟩ := tx'
    cases p; cases p'
    simp only at hv ht hu he hins houts
    rw [hv, ht, hu, he, hins, houts]
  rw [hp]

/-- Two transfers that differ only in an output amount have different transcripts. -/
theorem zeroTransfer_transcripts_differ :
    ∃ u u', pqUnsignedTx (zeroTransfer 1 1) 0 = some u ∧ pqUnsignedTx (zeroTransfer 1 2) 0 = some u' ∧
      txSigningPreimageV2 u nullHash 0 ≠ txSigningPreimageV2 u' nullHash 0 := by
  obtain ⟨u, u', hu, hu', hbind, -⟩ := signingTranscriptV2_binds zeroTransfer_semantic
    (show checkPqTransactionSemantic (zeroTransfer 1 2) = .ok () by decide +kernel) 0 0 nullHash nullHash 0 0
  refine ⟨u, u', hu, hu', fun e => ?_⟩
  have := (hbind e).2.2.2
  revert this
  decide +kernel

end Discrete.L2
