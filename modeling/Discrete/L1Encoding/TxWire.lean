import Discrete.L1Encoding.Transaction

/-!
# Transaction wire format (`CryptoNoteSerialization.cpp`, `CryptoNoteTools.h`)

`serialize(Transaction&)` runs in both directions over one description: version,
subtype, unlock height, inputs, outputs, extra, and one raw ML-DSA signature per
key-carrying input. Variants are tagged by a raw byte; integers are varints; PQ
blobs have fixed sizes. A key-reference input travels without its key, and the
reader fills the key in once it has the whole input list
(`resolvePqKeyReferences`).

Both directions throw on a malformed object. `fromBinaryArray` turns a throw, or
bytes left over, into `false`; `toBinaryArray` keeps what was already written.
-/
namespace Discrete.L1
open List Option Codec

def inputTagBase : UInt8 := 0xff
def inputTagKey : UInt8 := 0x10
def inputTagRef : UInt8 := 0x13
def outputTagPq : UInt8 := 0x10
def outputTagCoinbase : UInt8 := 0x11

/-- `parameters::MAX_PQ_GROUPED_INPUTS_PER_TX` -/
def maxPqGroupedInputsPerTx : Nat := 256

/-- `100 * 1024 * 1024`, the cap on a length-prefixed string. -/
def maxBinaryStringSize : Nat := 104857600

/-! ## Writing -/

/-- mirrors CryptoNoteSerialization.cpp:266-273 (OUTPUT) -/
def serializePqBlob (expected : Nat) (v : Bytes) : Out :=
  if v.length = expected then .put v else .throw

/-- mirrors CryptoNoteSerialization.cpp:45-53 -/
def inputTag : TransactionInput → UInt8
  | .base _ => inputTagBase
  | .pq i => if i.keyRef = pqNoKeyRef then inputTagKey else inputTagRef

/-- mirrors CryptoNoteSerialization.cpp:275-287 (OUTPUT) -/
def serializePqInput (key : PqInput) : Out :=
  (Out.put key.prevTxid.val).andThen <| (Out.put (writeVarint32 key.prevOutIndex)).andThen <|
    (if key.keyRef = pqNoKeyRef then serializePqBlob pqAuthPubSize key.authPub
      else .put (writeVarint32 key.keyRef)).andThen <| serializePqBlob pqRhoSize key.rhoReveal

/-- mirrors CryptoNoteSerialization.cpp:238-256 (OUTPUT) -/
def serializeInput (t : TransactionInput) : Out :=
  (Out.put [inputTag t]).andThen <| match t with
    | .base gen => .put (writeVarint32 gen.blockIndex)
    | .pq key => serializePqInput key

/-- mirrors CryptoNoteSerialization.cpp:325-353 (OUTPUT) -/
def serializeTarget : TransactionOutputTarget → Out
  | .key _ => .throw
  | .pq o =>
    (Out.put [outputTagPq]).andThen <| (serializePqBlob pqKemCiphertextSize o.kemCt).andThen <|
    (serializePqBlob pqEncPayloadSize o.encPayload).andThen <| .put o.spendCommit.val
  | .coinbase o => (Out.put [outputTagCoinbase]).andThen <| .put o.spendCommit.val

/-- mirrors CryptoNoteSerialization.cpp:318-323 (OUTPUT) -/
def serializeOutput (o : TransactionOutput) : Out :=
  (Out.put (writeVarint64 o.amount)).andThen <| (Out.put (writeVarint64 o.unlockHeight)).andThen <|
    serializeTarget o.target

/-- mirrors SerializationOverloads.h:118-146 (OUTPUT) -/
def serializeContainer {α : Type} (w : α → Out) (l : List α) : Out :=
  (Out.put (writeVarint l.length)).andThen (Out.each w l)

/-- mirrors CryptoNoteSerialization.cpp:197-215 (OUTPUT) -/
def serializePrefix (txP : TransactionPrefix) : Out :=
  (Out.put (writeVarint8 txP.version)).andThen <| if txP.version ≠ transactionVersion1 then .throw
    else
      (Out.put (writeVarint8 txP.txType)).andThen <| (Out.put (writeVarint64 txP.unlockHeight)).andThen <|
      (serializeContainer serializeInput txP.inputs).andThen <|
      (serializeContainer serializeOutput txP.outputs).andThen <| .put (writeVarint txP.extra.length ++ txP.extra)

/-- mirrors CryptoNoteSerialization.cpp:217-236 (OUTPUT) -/
def serializeTransaction (tx : Transaction) : Out :=
  (serializePrefix tx.toTransactionPrefix).andThen <| .put (tx.pqSignatures.flatMap Subtype.val)

/-- `toBinaryArray(tx)`: a throw is swallowed and the partial output returned.
mirrors CryptoNoteTools.h:33-54 -/
def toBinaryArray (tx : Transaction) : Bytes := (serializeTransaction tx).bytes

/-- `toBinaryArray` of the `TransactionPrefix` part. -/
def prefixToBinaryArray (txP : TransactionPrefix) : Bytes := (serializePrefix txP).bytes

/-- The failure value of `getObjectBinarySize`, `std::numeric_limits<size_t>::max()`. -/
def sizeMax : Nat := 2 ^ 64 - 1

/-- mirrors CryptoNoteTools.h:70-87 -/
def getObjectBinarySize (tx : Transaction) : Nat :=
  if (serializeTransaction tx).ok then (serializeTransaction tx).bytes.length else sizeMax

/-! ## Reading -/

/-- The key itself, or the reference that stands for it: `(authPub, keyRef)`. -/
def readKeyField (hasKey : Bool) : Reader (Bytes × UInt32) := fun s =>
  if hasKey then (readExact pqAuthPubSize s).map fun x => ((x.1, pqNoKeyRef), x.2)
  else (readVarint32 s).map fun x => (([], x.1), x.2)

/-- The preset `keyRef` selects the layout.
mirrors CryptoNoteSerialization.cpp:275-287 (INPUT) -/
def readPqInput (hasKey : Bool) : Reader PqInput := fun s => do
  let (prevTxid, s) ← readBlob 32 s
  let (prevOutIndex, s) ← readVarint32 s
  let ((authPub, keyRef), s) ← readKeyField hasKey s
  let (rhoReveal, s) ← readExact pqRhoSize s
  pure (⟨prevTxid, prevOutIndex, authPub, rhoReveal, keyRef⟩, s)

/-- mirrors CryptoNoteSerialization.cpp:75-109 -/
def readInput : Reader TransactionInput := fun s => do
  let (tag, s) ← readByte s
  if tag = inputTagBase then
    let (blockIndex, s) ← readVarint32 s
    pure (.base ⟨blockIndex⟩, s)
  else if tag = inputTagKey then
    let (v, s) ← readPqInput true s
    pure (.pq v, s)
  else if tag = inputTagRef then
    let (v, s) ← readPqInput false s
    if v.keyRef = pqNoKeyRef then none else pure (.pq v, s)
  else none

/-- mirrors CryptoNoteSerialization.cpp:111-134 -/
def readTarget : Reader TransactionOutputTarget := fun s => do
  let (tag, s) ← readByte s
  if tag = outputTagPq then
    let (kemCt, s) ← readExact pqKemCiphertextSize s
    let (encPayload, s) ← readExact pqEncPayloadSize s
    let (spendCommit, s) ← readBlob 32 s
    pure (.pq ⟨kemCt, encPayload, spendCommit⟩, s)
  else if tag = outputTagCoinbase then
    let (spendCommit, s) ← readBlob 32 s
    pure (.coinbase ⟨spendCommit⟩, s)
  else none

/-- mirrors CryptoNoteSerialization.cpp:318-323 (INPUT) -/
def readOutput : Reader TransactionOutput := fun s => do
  let (amount, s) ← readVarint64 s
  let (unlockHeight, s) ← readVarint64 s
  let (target, s) ← readTarget s
  pure (⟨amount, unlockHeight, target⟩, s)

/-- mirrors SerializationOverloads.h:118-146 (INPUT) -/
def readContainer {α : Type} (r : Reader α) : Reader (List α) := fun s => do
  let (size, s) ← readVarint 64 s
  readMany r size s

/-- One turn of the loop: input `i` gets the key of the input it names.
mirrors CryptoNoteSerialization.cpp:290-311 -/
def resolveStep (inputs : List TransactionInput) (i : Nat) : Option (List TransactionInput) :=
  match inputs[i]? with
  | some (.pq inp) =>
    if inp.keyRef = pqNoKeyRef then some inputs
    else if inputs.length > maxPqGroupedInputsPerTx then none
    else if inp.keyRef.toNat ≥ i then none
    else
      match inputs[inp.keyRef.toNat]? with
      | some (.pq target) =>
        if target.keyRef ≠ pqNoKeyRef then none
        else some (inputs.set i (.pq { inp with authPub := target.authPub }))
      | _ => none
  | _ => some inputs

/-- mirrors CryptoNoteSerialization.cpp:289-312 -/
def resolvePqKeyReferences (inputs : List TransactionInput) : Option (List TransactionInput) :=
  (List.range inputs.length).foldlM resolveStep inputs

/-- `binary(std::string&)`: a length of at most 100 MiB, then the bytes.
mirrors BinaryInputStreamSerializer.cpp:98-115,122-124 -/
def readBinaryString : Reader Bytes := fun s => do
  let (size, s) ← readVarint 64 s
  if size > maxBinaryStringSize then none else readExact size s

/-- mirrors CryptoNoteSerialization.cpp:197-215 (INPUT) -/
def readPrefix : Reader TransactionPrefix := fun s => do
  let (version, s) ← readVarint8 s
  if version ≠ transactionVersion1 then none
  else
    let (txType, s) ← readVarint8 s
    let (unlockHeight, s) ← readVarint64 s
    let (wireInputs, s) ← readContainer readInput s
    let inputs ← resolvePqKeyReferences wireInputs
    let (outputs, s) ← readContainer readOutput s
    let (extra, s) ← readBinaryString s
    pure (⟨version, txType, unlockHeight, inputs, outputs, extra⟩, s)

/-- mirrors CryptoNoteSerialization.cpp:222-227 -/
def pqSignatureCount (inputs : List TransactionInput) : Nat :=
  inputs.countP TransactionInput.carriesKey

/-- mirrors CryptoNoteSerialization.cpp:217-236 (INPUT) -/
def readTransaction : Reader Transaction := fun s => do
  let (txP, s) ← readPrefix s
  let (pqSignatures, s) ← readMany (readBlob pqSignatureSize) (pqSignatureCount txP.inputs) s
  pure (⟨txP, pqSignatures⟩, s)

/-- mirrors CryptoNoteTools.h:56-68 -/
def fromBinaryArray (s : Bytes) : Option Transaction :=
  match readTransaction s with
  | some (tx, []) => some tx
  | _ => none

/-! ## Size -/

theorem serializePqBlob_length_le (n : Nat) (v : Bytes) : (serializePqBlob n v).bytes.length ≤ n := by
  unfold serializePqBlob
  split
  · rename_i h
    rw [Out.put_bytes, h]
  · exact Nat.zero_le n

/-- The most an input takes on the wire: the outpoint and the opening, and the key
when it carries one. -/
def inputSizeBound (t : TransactionInput) : Nat := 85 + if t.carriesKey then pqAuthPubSize else 0

def outputSizeBound : Nat := 1197

theorem serializeInput_length_le (t : TransactionInput) : (serializeInput t).bytes.length ≤ inputSizeBound t := by
  unfold serializeInput
  rw [Out.put_andThen_bytes, length_append, length_singleton]
  cases t with
  | base gen =>
    have := writeVarint_length_le gen.blockIndex.toNat
    simp only [Out.put_bytes, writeVarint32, inputSizeBound]
    omega
  | pq key =>
    have hindex := writeVarint_length_le key.prevOutIndex.toNat
    have href := writeVarint_length_le key.keyRef.toNat
    have hkey := serializePqBlob_length_le pqAuthPubSize key.authPub
    have hrho := serializePqBlob_length_le pqRhoSize key.rhoReveal
    have hrest := Out.length_andThen_le (if key.keyRef = pqNoKeyRef then serializePqBlob pqAuthPubSize key.authPub
      else .put (writeVarint32 key.keyRef)) (serializePqBlob pqRhoSize key.rhoReveal)
    simp only [serializePqInput, Out.put_andThen_bytes, length_append, key.prevTxid.property, writeVarint32,
      inputSizeBound, TransactionInput.carriesKey, PqInput.carriesKey, decide_eq_true_eq]
    unfold pqRhoSize at hrho hrest ⊢
    by_cases hno : key.keyRef = pqNoKeyRef
    · simp only [hno, if_true] at hrest ⊢
      omega
    · simp only [hno, if_false, Out.put_bytes, writeVarint32] at hrest ⊢
      omega

theorem serializeOutput_length_le (o : TransactionOutput) : (serializeOutput o).bytes.length ≤ outputSizeBound := by
  have hamount := writeVarint_length_le o.amount.toNat
  have hunlock := writeVarint_length_le o.unlockHeight.toNat
  have htarget : (serializeTarget o.target).bytes.length ≤ 1177 := by
    cases o.target with
    | key k => exact Nat.zero_le _
    | coinbase c =>
      simp [serializeTarget, c.spendCommit.property]
    | pq po =>
      have hct : (serializePqBlob pqKemCiphertextSize po.kemCt).bytes.length ≤ 1088 := serializePqBlob_length_le _ _
      have henc : (serializePqBlob pqEncPayloadSize po.encPayload).bytes.length ≤ 56 := serializePqBlob_length_le _ _
      have h1 := Out.length_andThen_le (serializePqBlob pqEncPayloadSize po.encPayload) (.put po.spendCommit.val)
      have h2 := Out.length_andThen_le (serializePqBlob pqKemCiphertextSize po.kemCt)
        ((serializePqBlob pqEncPayloadSize po.encPayload).andThen (.put po.spendCommit.val))
      rw [Out.put_bytes, po.spendCommit.property] at h1
      simp only [serializeTarget, Out.put_andThen_bytes, length_append, length_singleton]
      omega
  simp only [serializeOutput, Out.put_andThen_bytes, length_append, writeVarint64, outputSizeBound]
  omega

theorem serializeContainer_length_le {α : Type} {w : α → Out} {f : α → Nat} {l : List α}
    (h : ∀ a ∈ l, (w a).bytes.length ≤ f a) : (serializeContainer w l).bytes.length ≤ 10 + (l.map f).sum := by
  have hcount := writeVarint_length_le l.length
  have heach := Out.length_each_le h
  rw [serializeContainer, Out.put_andThen_bytes, length_append]
  omega

theorem sum_inputSizeBound (l : List TransactionInput) :
    (l.map inputSizeBound).sum = 85 * l.length + pqAuthPubSize * pqSignatureCount l := by
  induction l with
  | nil => rfl
  | cons t l ih =>
    have hcount : pqSignatureCount (t :: l) = pqSignatureCount l + if t.carriesKey then 1 else 0 := countP_cons
    rw [map_cons, sum_cons, ih, hcount, inputSizeBound, length_cons, Nat.mul_add, Nat.mul_add]
    split <;> omega

/-- What a transaction takes on the wire, by the counts consensus caps. -/
theorem toBinaryArray_length_le (tx : Transaction) :
    (toBinaryArray tx).length ≤ 60 + 85 * tx.inputs.length + pqAuthPubSize * pqSignatureCount tx.inputs +
      outputSizeBound * tx.outputs.length + tx.extra.length + pqSignatureSize * tx.pqSignatures.length := by
  have hversion := writeVarint_length_le tx.version.toNat
  have htype := writeVarint_length_le tx.txType.toNat
  have hunlock := writeVarint_length_le tx.unlockHeight.toNat
  have hextra := writeVarint_length_le tx.extra.length
  have hins := serializeContainer_length_le (l := tx.inputs) fun t _ => serializeInput_length_le t
  have houts := serializeContainer_length_le (l := tx.outputs) fun o _ => serializeOutput_length_le o
  rw [sum_inputSizeBound] at hins
  rw [map_const', sum_replicate_nat, Nat.mul_comm] at houts
  have hsigs : (tx.pqSignatures.flatMap Subtype.val).length = pqSignatureSize * tx.pqSignatures.length := by
    rw [length_flatMap, map_congr_left fun s _ => s.property, map_const', sum_replicate_nat, Nat.mul_comm]
  have hprefix : (serializePrefix tx.toTransactionPrefix).bytes.length ≤ 60 + 85 * tx.inputs.length +
      pqAuthPubSize * pqSignatureCount tx.inputs + outputSizeBound * tx.outputs.length + tx.extra.length := by
    unfold serializePrefix
    rw [Out.put_andThen_bytes, length_append, writeVarint8]
    split
    · exact Nat.le_trans (Nat.add_le_add hversion (Nat.zero_le 0)) (by omega)
    · have htail := Out.length_andThen_le (serializeContainer serializeOutput tx.outputs)
        (.put (writeVarint tx.extra.length ++ tx.extra))
      have hbody := Out.length_andThen_le (serializeContainer serializeInput tx.inputs)
        ((serializeContainer serializeOutput tx.outputs).andThen (.put (writeVarint tx.extra.length ++ tx.extra)))
      rw [Out.put_bytes, length_append] at htail
      simp only [Out.put_andThen_bytes, length_append, writeVarint8, writeVarint64]
      omega
  have hall := Out.length_andThen_le (serializePrefix tx.toTransactionPrefix) (.put (tx.pqSignatures.flatMap Subtype.val))
  rw [Out.put_bytes, hsigs] at hall
  rw [toBinaryArray, serializeTransaction]
  omega

/-! ## Resolving key references -/

/-- The loop's test of input `i`: a reference names an earlier input that
carries its key, and the list is short enough to expand. -/
def keyRefOk (inputs : List TransactionInput) (i : Nat) : Bool :=
  match inputs[i]? with
  | some (.pq inp) =>
    inp.carriesKey ||
      (decide (inputs.length ≤ maxPqGroupedInputsPerTx) && decide (inp.keyRef.toNat < i) &&
        ((inputs[inp.keyRef.toNat]?).map TransactionInput.carriesKey).getD false)
  | _ => true

/-- An input with the key of the input it names filled in. -/
def fillKey (inputs : List TransactionInput) : TransactionInput → TransactionInput
  | .base b => .base b
  | .pq inp =>
    if inp.keyRef = pqNoKeyRef then .pq inp
    else
      match inputs[inp.keyRef.toNat]? with
      | some (.pq target) => .pq { inp with authPub := target.authPub }
      | _ => .pq inp

@[simp] theorem fillKey_carriesKey (inputs : List TransactionInput) (t : TransactionInput) :
    (fillKey inputs t).carriesKey = t.carriesKey := by
  cases t with
  | base b => rfl
  | pq inp =>
    simp only [fillKey]
    split
    · rfl
    · split <;> rfl

variable {inputs : List TransactionInput} {t : TransactionInput}

theorem fillKey_of_carriesKey (h : t.carriesKey = true) : fillKey inputs t = t := by
  cases t with
  | base b => rfl
  | pq inp =>
    have : inp.keyRef = pqNoKeyRef := by
      simpa [TransactionInput.carriesKey, PqInput.carriesKey] using h
    simp [fillKey, this]

/-- The list after `k` turns: the first `k` inputs are filled in. -/
def filled (inputs : List TransactionInput) (k : Nat) : List TransactionInput :=
  (inputs.take k).map (fillKey inputs) ++ inputs.drop k

@[simp] theorem filled_length (inputs : List TransactionInput) (k : Nat) :
    (filled inputs k).length = inputs.length := by
  simp only [filled, length_append, length_map, length_take, length_drop]
  omega

variable {k i : Nat}

theorem filled_getElem? (hk : k ≤ inputs.length) :
    (filled inputs k)[i]? = if i < k then (inputs[i]?).map (fillKey inputs) else inputs[i]? := by
  unfold filled
  split
  · rename_i h
    rw [getElem?_append_left (by simp; omega), getElem?_map, getElem?_take_of_lt h]
  · rename_i h
    rw [getElem?_append_right (by simp; omega)]
    simp only [length_map, length_take, getElem?_drop]
    congr 1
    omega

theorem filled_succ (hk : k < inputs.length) :
    filled inputs (k + 1) = (filled inputs k).set k (fillKey inputs inputs[k]) := by
  apply ext_getElem?
  intro i
  rw [filled_getElem? hk, getElem?_set, filled_getElem? (Nat.le_of_lt hk)]
  by_cases h : k = i
  · subst h
    simp [hk]
  · rw [if_neg h]
    by_cases h' : i < k
    · rw [if_pos (by omega), if_pos h']
    · rw [if_neg (by omega), if_neg h']

theorem set_same {l : List TransactionInput} (h : l[k]? = some t) : l.set k t = l := by
  apply ext_getElem?
  intro i
  rw [getElem?_set]
  by_cases e : k = i
  · subst e
    rw [if_pos rfl, h]
    simp [(List.getElem?_eq_some_iff.mp h).1]
  · rw [if_neg e]

/-- One turn, from the state the earlier turns leave. -/
theorem resolveStep_filled (hk : k < inputs.length) :
    resolveStep (filled inputs k) k = if keyRefOk inputs k then some (filled inputs (k + 1)) else none := by
  have hget : inputs[k]? = some inputs[k] := getElem?_eq_getElem hk
  have hget' : (filled inputs k)[k]? = some inputs[k] := by
    rw [filled_getElem? (Nat.le_of_lt hk), if_neg (by omega), hget]
  unfold resolveStep keyRefOk
  rw [hget', hget, filled_succ hk]
  cases ht : inputs[k] with
  | base b =>
    rw [ht] at hget'
    simp only [fillKey]
    rw [set_same hget', if_pos trivial]
  | pq inp =>
    rw [ht] at hget'
    simp only [filled_length, PqInput.carriesKey]
    by_cases hno : inp.keyRef = pqNoKeyRef
    · simp only [hno, if_true, decide_true, Bool.true_or, fillKey]
      rw [set_same hget']
    · rw [if_neg hno]
      simp only [hno, decide_false, Bool.false_or, Bool.and_eq_true, decide_eq_true_eq]
      by_cases hcap : inputs.length ≤ maxPqGroupedInputsPerTx
      · rw [if_neg (by omega)]
        by_cases hlt : inp.keyRef.toNat < k
        · -- the target was visited earlier; filling keys in left its form alone
          rw [if_neg (by omega), filled_getElem? (Nat.le_of_lt hk), if_pos hlt]
          simp only [hcap, hlt, true_and, fillKey, if_neg hno]
          cases hj : inputs[inp.keyRef.toNat]? with
          | none => simp
          | some t =>
            cases t with
            | base b => simp [fillKey, TransactionInput.carriesKey]
            | pq target =>
              by_cases htk : target.keyRef = pqNoKeyRef
              · simp [fillKey, htk, TransactionInput.carriesKey, PqInput.carriesKey]
              · have hc : (fillKey inputs (.pq target)).carriesKey = false := by
                  rw [fillKey_carriesKey]
                  simp [TransactionInput.carriesKey, PqInput.carriesKey, htk]
                simp only [map_some, TransactionInput.carriesKey, PqInput.carriesKey, htk,
                  decide_false, getD_some, Bool.false_eq_true, if_false]
                cases hf : fillKey inputs (.pq target) with
                | base b => rfl
                | pq target' =>
                  rw [hf] at hc
                  have : target'.keyRef ≠ pqNoKeyRef := by
                    simpa [TransactionInput.carriesKey, PqInput.carriesKey] using hc
                  simp [this]
        · rw [if_pos (by omega), if_neg (fun h => hlt h.1.2)]
      · rw [if_pos (by omega), if_neg (fun h => hcap h.1.1)]

theorem resolve_turns : ∀ k, k ≤ inputs.length → (List.range k).foldlM resolveStep inputs =
      if ∀ i < k, keyRefOk inputs i = true then some (filled inputs k) else none := by
  intro k
  induction k with
  | zero => intro _; simp [filled]
  | succ k ih =>
    intro hk
    rw [range_succ, foldlM_append, ih (by omega)]
    by_cases h : ∀ i < k, keyRefOk inputs i = true
    · rw [if_pos h]
      simp only [bind_eq_bind, bind_some, foldlM_cons, foldlM_nil, resolveStep_filled hk]
      by_cases hk' : keyRefOk inputs k = true
      · have hall : ∀ i < k + 1, keyRefOk inputs i = true := by
          intro i hi
          rcases Nat.lt_succ_iff_lt_or_eq.mp hi with hi | rfl
          · exact h i hi
          · exact hk'
        rw [if_pos hk', if_pos hall]
        rfl
      · rw [if_neg hk', if_neg (fun hc => hk' (hc k (Nat.lt_succ_self k)))]
        rfl
    · rw [if_neg h, if_neg (fun hc => h fun i hi => hc i (by omega))]
      rfl

/-- The reader's post-pass succeeds exactly when every reference passes the
test, and then fills in the keys. -/
theorem resolvePqKeyReferences_eq (inputs : List TransactionInput) :
    resolvePqKeyReferences inputs =
      if ∀ i < inputs.length, keyRefOk inputs i = true then some (inputs.map (fillKey inputs)) else none := by
  unfold resolvePqKeyReferences
  rw [resolve_turns _ (Nat.le_refl _)]
  simp [filled]

/-! ## What is accepted is what would be written -/

@[simp] theorem serializePqBlob_ok {n : Nat} {v : Bytes} : (serializePqBlob n v).ok = decide (v.length = n) := by
  unfold serializePqBlob
  split <;> rename_i h <;> simp [h]

theorem serializePqBlob_of_length {n : Nat} {v : Bytes} (h : v.length = n) :
    serializePqBlob n v = .put v := if_pos h

variable {s rest : Bytes}

theorem readPqInput_eq_some {hasKey : Bool} {v : PqInput} (h : readPqInput hasKey s = some (v, rest)) :
    (hasKey = true → v.keyRef = pqNoKeyRef ∧ v.authPub.length = pqAuthPubSize) ∧
    (hasKey = false → v.authPub = []) ∧ v.rhoReveal.length = pqRhoSize ∧
    s = v.prevTxid.val ++ (writeVarint32 v.prevOutIndex ++
      ((if hasKey then v.authPub else writeVarint32 v.keyRef) ++ (v.rhoReveal ++ rest))) := by
  simp only [readPqInput, bind_eq_bind, bind_eq_some_iff, Prod.exists, Option.pure_def,
    some.injEq, Prod.mk.injEq] at h
  obtain ⟨txid, s1, h1, idx, s2, h2, auth, ref, s3, h3, rho, s4, h4, rfl, rfl⟩ := h
  have e1 := readBlob_canonical 32 h1
  have e2 := readVarint32_canonical h2
  obtain ⟨e4, hrho⟩ := readExact_eq_some.mp h4
  cases hasKey with
  | true =>
    simp only [readKeyField, if_true, map_eq_some_iff, Prod.mk.injEq, Prod.exists] at h3
    obtain ⟨a, b, h3, ⟨rfl, rfl⟩, rfl⟩ := h3
    obtain ⟨e3, hauth⟩ := readExact_eq_some.mp h3
    refine ⟨fun _ => ⟨rfl, hauth⟩, fun hc => (by cases hc), hrho, ?_⟩
    rw [e1, e2, e3, e4]
    rfl
  | false =>
    simp only [readKeyField, Bool.false_eq_true, if_false, map_eq_some_iff, Prod.mk.injEq, Prod.exists] at h3
    obtain ⟨a, b, h3, ⟨rfl, rfl⟩, rfl⟩ := h3
    have e3 := readVarint32_canonical h3
    refine ⟨fun hc => (by cases hc), fun _ => rfl, hrho, ?_⟩
    rw [e1, e2, e3, e4]
    rfl

theorem readInput_canonical : CanonicalOut readInput serializeInput := by
  intro s t rest h
  simp only [readInput, bind_eq_bind, bind_eq_some_iff, Prod.exists] at h
  obtain ⟨tag, s1, h1, h⟩ := h
  rw [readByte_eq_some.mp h1]
  split at h
  · rename_i htag
    simp only [bind_eq_some_iff, Prod.exists, Option.pure_def, some.injEq, Prod.mk.injEq] at h
    obtain ⟨idx, s2, h2, rfl, rfl⟩ := h
    rw [readVarint32_canonical h2, htag]
    simp [serializeInput, inputTag]
  · split at h
    · rename_i htag
      simp only [bind_eq_some_iff, Prod.exists, Option.pure_def, some.injEq, Prod.mk.injEq] at h
      obtain ⟨v, s2, h2, rfl, rfl⟩ := h
      obtain ⟨hkey, -, hrho, e⟩ := readPqInput_eq_some h2
      obtain ⟨hno, hauth⟩ := hkey rfl
      rw [e, htag]
      simp [serializeInput, serializePqInput, inputTag, hno, serializePqBlob_of_length hauth,
        serializePqBlob_of_length hrho]
    · split at h
      · rename_i htag
        simp only [bind_eq_some_iff, Prod.exists] at h
        obtain ⟨v, s2, h2, h⟩ := h
        split at h
        · cases h
        · rename_i hno
          simp only [Option.pure_def, some.injEq, Prod.mk.injEq] at h
          obtain ⟨rfl, rfl⟩ := h
          obtain ⟨-, -, hrho, e⟩ := readPqInput_eq_some h2
          rw [e, htag]
          simp [serializeInput, serializePqInput, inputTag, hno, serializePqBlob_of_length hrho]
      · cases h

/-- A reference input leaves its key behind, so filling the key in does not
change what is written. -/
theorem serializeInput_fillKey (inputs : List TransactionInput) (t : TransactionInput) :
    serializeInput (fillKey inputs t) = serializeInput t := by
  cases t with
  | base b => rfl
  | pq inp =>
    simp only [fillKey]
    split
    · rfl
    · rename_i hno
      split
      · simp [serializeInput, serializePqInput, inputTag, hno]
      · rfl

theorem readTarget_canonical : CanonicalOut readTarget serializeTarget := by
  intro s t rest h
  simp only [readTarget, bind_eq_bind, bind_eq_some_iff, Prod.exists] at h
  obtain ⟨tag, s1, h1, h⟩ := h
  rw [readByte_eq_some.mp h1]
  split at h
  · rename_i htag
    simp only [bind_eq_some_iff, Prod.exists, Option.pure_def, some.injEq, Prod.mk.injEq] at h
    obtain ⟨kem, s2, h2, enc, s3, h3, commit, s4, h4, rfl, rfl⟩ := h
    obtain ⟨e2, hk⟩ := readExact_eq_some.mp h2
    obtain ⟨e3, he⟩ := readExact_eq_some.mp h3
    rw [e2, e3, readBlob_canonical 32 h4, htag]
    simp [serializeTarget, serializePqBlob_of_length hk, serializePqBlob_of_length he]
  · split at h
    · rename_i htag
      simp only [bind_eq_some_iff, Prod.exists, Option.pure_def, some.injEq, Prod.mk.injEq] at h
      obtain ⟨commit, s2, h2, rfl, rfl⟩ := h
      rw [readBlob_canonical 32 h2, htag]
      simp [serializeTarget]
    · cases h

theorem readOutput_canonical : CanonicalOut readOutput serializeOutput := by
  intro s o rest h
  simp only [readOutput, bind_eq_bind, bind_eq_some_iff, Prod.exists, Option.pure_def,
    some.injEq, Prod.mk.injEq] at h
  obtain ⟨amount, s1, h1, unlock, s2, h2, target, s3, h3, rfl, rfl⟩ := h
  obtain ⟨hok, e⟩ := readTarget_canonical h3
  rw [readVarint64_canonical h1, readVarint64_canonical h2, e]
  simp [serializeOutput, hok]

theorem readContainer_canonical {α : Type} {r : Reader α} {w : α → Out} (h : CanonicalOut r w) :
    CanonicalOut (readContainer r) (serializeContainer w) := by
  intro s l rest e
  simp only [readContainer, bind_eq_bind, bind_eq_some_iff, Prod.exists] at e
  obtain ⟨n, s1, h1, e⟩ := e
  obtain ⟨hok, e'⟩ := h.readMany e
  rw [readVarint_canonical (by omega) (by omega) h1, e', ← readMany_length e]
  simp [serializeContainer, hok]

theorem serializeContainer_map_fillKey (inputs l : List TransactionInput) :
    serializeContainer serializeInput (l.map (fillKey inputs)) = serializeContainer serializeInput l := by
  have : ∀ l : List TransactionInput, Out.each serializeInput (l.map (fillKey inputs)) = Out.each serializeInput l := by
    intro l
    induction l with
    | nil => rfl
    | cons t l ih => rw [map_cons, Out.each, Out.each, serializeInput_fillKey, ih]
  unfold serializeContainer
  rw [length_map, this]

theorem readBinaryString_canonical : Canonical readBinaryString (fun b => writeVarint b.length ++ b) := by
  intro s b rest h
  simp only [readBinaryString, bind_eq_bind, bind_eq_some_iff, Prod.exists] at h
  obtain ⟨n, s1, h1, h⟩ := h
  split at h
  · cases h
  · obtain ⟨e, rfl⟩ := readExact_eq_some.mp h
    rw [readVarint_canonical (by omega) (by omega) h1, e, append_assoc]

theorem readPrefix_canonical : CanonicalOut readPrefix serializePrefix := by
  intro s txP rest h
  simp only [readPrefix, bind_eq_bind, bind_eq_some_iff, Prod.exists] at h
  obtain ⟨version, s1, h1, h⟩ := h
  split at h
  · cases h
  · rename_i hv
    simp only [bind_eq_some_iff, Prod.exists, Option.pure_def, some.injEq, Prod.mk.injEq] at h
    obtain ⟨txType, s2, h2, unlock, s3, h3, raw, s4, h4, ins, h5, outs, s6, h6, extra, s7, h7, rfl, rfl⟩ := h
    obtain ⟨okIn, e4⟩ := readContainer_canonical readInput_canonical h4
    obtain ⟨okOut, e6⟩ := readContainer_canonical readOutput_canonical h6
    rw [resolvePqKeyReferences_eq] at h5
    split at h5
    · simp only [some.injEq] at h5
      subst h5
      rw [readVarint8_canonical h1, readVarint8_canonical h2, readVarint64_canonical h3, e4, e6,
        readBinaryString_canonical h7]
      simp [serializePrefix, hv, serializeContainer_map_fillKey, okIn, okOut,
        Out.andThen_bytes _ okIn, Out.andThen_bytes _ okOut]
    · cases h5

theorem readTransaction_canonical : CanonicalOut readTransaction serializeTransaction := by
  intro s tx rest h
  simp only [readTransaction, bind_eq_bind, bind_eq_some_iff, Prod.exists,
    Option.pure_def, some.injEq, Prod.mk.injEq] at h
  obtain ⟨txP, s1, h1, sigs, s2, h2, rfl, rfl⟩ := h
  obtain ⟨hok, e⟩ := readPrefix_canonical h1
  rw [e, (readBlob_canonical _).readMany h2]
  simp [serializeTransaction, hok, Out.andThen_bytes _ hok]

variable {tx : Transaction}

theorem fromBinaryArray_eq_some : fromBinaryArray s = some tx ↔ readTransaction s = some (tx, []) := by
  unfold fromBinaryArray
  constructor
  · intro h
    split at h
    · rename_i tx' e
      simp only [some.injEq] at h
      subst h
      exact e
    · cases h
  · intro h
    rw [h]

/-- No transaction has two encodings: what decodes to `tx` is what `tx` encodes to. -/
theorem toBinaryArray_fromBinaryArray (h : fromBinaryArray s = some tx) :
    (serializeTransaction tx).ok = true ∧ toBinaryArray tx = s := by
  obtain ⟨hok, e⟩ := readTransaction_canonical (fromBinaryArray_eq_some.mp h)
  exact ⟨hok, by rw [toBinaryArray, e, append_nil]⟩

/-! ## What is written is read back -/

/-- An input as it travels: a reference leaves its key behind. -/
def wireForm : TransactionInput → TransactionInput
  | .base b => .base b
  | .pq inp => if inp.keyRef = pqNoKeyRef then .pq inp else .pq { inp with authPub := [] }

@[simp] theorem wireForm_carriesKey (t : TransactionInput) : (wireForm t).carriesKey = t.carriesKey := by
  cases t with
  | base b => rfl
  | pq inp =>
    simp only [wireForm]
    split <;> rfl

theorem wireForm_of_carriesKey (h : t.carriesKey = true) : wireForm t = t := by
  cases t with
  | base b => rfl
  | pq inp =>
    have : inp.keyRef = pqNoKeyRef := by
      simpa [TransactionInput.carriesKey, PqInput.carriesKey] using h
    simp [wireForm, this]

@[simp] theorem serializeInput_wireForm (t : TransactionInput) : serializeInput (wireForm t) = serializeInput t := by
  cases t with
  | base b => rfl
  | pq inp =>
    simp only [wireForm]
    split
    · rfl
    · rename_i hno
      simp [serializeInput, serializePqInput, inputTag, hno]

theorem readKeyField_write {inp : PqInput} (h : wireForm (.pq inp) = .pq inp)
    (hok : inp.keyRef = pqNoKeyRef → inp.authPub.length = pqAuthPubSize) (rest : Bytes) :
    readKeyField (decide (inp.keyRef = pqNoKeyRef))
      ((if inp.keyRef = pqNoKeyRef then inp.authPub else writeVarint32 inp.keyRef) ++ rest) =
      some ((inp.authPub, inp.keyRef), rest) := by
  unfold readKeyField
  by_cases hno : inp.keyRef = pqNoKeyRef
  · simp only [hno, decide_true, if_true]
    rw [readExact_eq_some.mpr ⟨rfl, hok hno⟩]
    rfl
  · have hauth : inp.authPub = [] := by
      simp only [wireForm, hno, if_false, TransactionInput.pq.injEq] at h
      rw [← h]
    simp only [hno, decide_false, Bool.false_eq_true, if_false]
    rw [readVarint32_inverts trivial, hauth]
    rfl

theorem readPqInput_write {inp : PqInput} (h : wireForm (.pq inp) = .pq inp)
    (hok : (serializePqInput inp).ok = true) (rest : Bytes) :
    readPqInput (decide (inp.keyRef = pqNoKeyRef)) ((serializePqInput inp).bytes ++ rest) = some (inp, rest) := by
  have hrho : inp.rhoReveal.length = pqRhoSize := by
    simp only [serializePqInput, Out.andThen_ok, Out.put_ok, Bool.true_and, Bool.and_eq_true,
      serializePqBlob_ok, decide_eq_true_eq] at hok
    exact hok.2
  have hauth : inp.keyRef = pqNoKeyRef → inp.authPub.length = pqAuthPubSize := by
    intro hno
    simp only [serializePqInput, hno, if_true, Out.andThen_ok, Out.put_ok, Bool.true_and,
      Bool.and_eq_true, serializePqBlob_ok, decide_eq_true_eq] at hok
    exact hok.1
  have hbytes : (serializePqInput inp).bytes ++ rest = inp.prevTxid.val ++ (writeVarint32 inp.prevOutIndex ++
        ((if inp.keyRef = pqNoKeyRef then inp.authPub else writeVarint32 inp.keyRef) ++ (inp.rhoReveal ++ rest))) := by
    by_cases hno : inp.keyRef = pqNoKeyRef
    · simp [serializePqInput, hno, serializePqBlob_of_length hrho, serializePqBlob_of_length (hauth hno)]
    · simp [serializePqInput, hno, serializePqBlob_of_length hrho]
  rw [hbytes]
  simp only [readPqInput, readBlob_inverts 32 (show True from trivial), bind_eq_bind,
    bind_some, readVarint32_inverts (show True from trivial), readKeyField_write h hauth,
    readExact_eq_some.mpr ⟨rfl, hrho⟩, Option.pure_def]

theorem readInput_inverts : Inverts (fun t => (serializeInput t).ok = true ∧ wireForm t = t)
    readInput (fun t => (serializeInput t).bytes) := by
  rintro t ⟨hok, hw⟩ rest
  cases t with
  | base gen =>
    simp [readInput, serializeInput, inputTag, readByte, inputTagBase, readVarint32_inverts (show True from trivial)]
  | pq inp =>
    have hok' : (serializePqInput inp).ok = true := by simpa [serializeInput] using hok
    have hr := readPqInput_write hw hok' rest
    by_cases hno : inp.keyRef = pqNoKeyRef
    · simp only [hno, decide_true] at hr
      simp [readInput, serializeInput, inputTag, readByte, hno, inputTagKey, inputTagBase, hr]
    · simp only [hno, decide_false] at hr
      simp [readInput, serializeInput, inputTag, readByte, hno, inputTagKey, inputTagBase, inputTagRef, hr]

theorem readTarget_inverts : Inverts (fun t => (serializeTarget t).ok = true)
    readTarget (fun t => (serializeTarget t).bytes) := by
  intro t hok rest
  cases t with
  | key k => simp [serializeTarget] at hok
  | pq o =>
    simp only [serializeTarget, Out.andThen_ok, Out.put_ok, Bool.true_and, Bool.and_true,
      Bool.and_eq_true, serializePqBlob_ok, decide_eq_true_eq] at hok
    simp only [serializeTarget, serializePqBlob_of_length hok.1, serializePqBlob_of_length hok.2,
      Out.put_andThen_bytes, Out.put_bytes, append_assoc, cons_append, nil_append]
    simp [readTarget, readByte, readExact_eq_some.mpr ⟨rfl, hok.1⟩,
      readExact_eq_some.mpr ⟨rfl, hok.2⟩, readBlob_inverts 32 (show True from trivial)]
  | coinbase o =>
    simp [serializeTarget, readTarget, readByte, outputTagPq, outputTagCoinbase,
      readBlob_inverts 32 (show True from trivial)]

theorem readOutput_inverts : Inverts (fun o => (serializeOutput o).ok = true)
    readOutput (fun o => (serializeOutput o).bytes) := by
  intro o hok rest
  have ht : (serializeTarget o.target).ok = true := by simpa [serializeOutput] using hok
  simp only [serializeOutput, Out.put_andThen_bytes, append_assoc]
  simp [readOutput, readVarint64_inverts (show True from trivial), readTarget_inverts ht]

theorem readContainer_write {α : Type} {P : α → Prop} {r : Reader α} {w : α → Out}
    (h : Inverts P r (fun a => (w a).bytes)) {l : List α} (hl : ∀ a ∈ l, P a)
    (hok : (serializeContainer w l).ok = true) (hlen : l.length < 2 ^ 64) (rest : Bytes) :
    readContainer r ((serializeContainer w l).bytes ++ rest) = some (l, rest) := by
  have hok' : (Out.each w l).ok = true := by simpa [serializeContainer] using hok
  simp only [serializeContainer, Out.put_andThen_bytes, Out.each_bytes hok', append_assoc]
  simp only [readContainer, readVarint_inverts (Nat.le_refl 64) hlen, bind_eq_bind, bind_some]
  exact h.readMany hl rest

theorem readBinaryString_write {b : Bytes} (h : b.length ≤ maxBinaryStringSize) (rest : Bytes) :
    readBinaryString (writeVarint b.length ++ b ++ rest) = some (b, rest) := by
  have hlt : b.length < 2 ^ 64 := Nat.lt_of_le_of_lt h (by decide)
  simp only [readBinaryString, append_assoc, readVarint_inverts (Nat.le_refl 64) hlt,
    bind_eq_bind, bind_some, if_neg (Nat.not_lt.mpr h)]
  exact readExact_eq_some.mpr ⟨rfl, rfl⟩

/-- Only the references are looked at, so stripping the keys changes nothing. -/
theorem keyRefOk_map_wireForm (inputs : List TransactionInput) (i : Nat) :
    keyRefOk (inputs.map wireForm) i = keyRefOk inputs i := by
  unfold keyRefOk
  rw [getElem?_map]
  cases hi : inputs[i]? with
  | none => rfl
  | some t =>
    cases t with
    | base b => rfl
    | pq inp =>
      by_cases hno : inp.keyRef = pqNoKeyRef
      · simp [wireForm, hno, PqInput.carriesKey]
      · simp only [map_some, wireForm, hno, if_false, PqInput.carriesKey, length_map, getElem?_map, Option.map_map]
        congr 3
        exact congrArg (fun f => Option.map f inputs[inp.keyRef.toNat]?) (funext wireForm_carriesKey)

theorem fillKey_map_wireForm (ht : inputs[i]? = some t) (href : keyRefOk inputs i = true) :
    fillKey (inputs.map wireForm) (wireForm t) = fillKey inputs t := by
  cases t with
  | base b => rfl
  | pq inp =>
    by_cases hno : inp.keyRef = pqNoKeyRef
    · simp [wireForm, fillKey, hno]
    · simp only [keyRefOk, ht, PqInput.carriesKey, hno, decide_false, Bool.false_or, Bool.and_eq_true] at href
      simp only [wireForm, fillKey, hno, if_false, getElem?_map]
      -- the named input carries its key, so it travels with it
      cases hj : inputs[inp.keyRef.toNat]? with
      | none => simp [hj] at href
      | some target =>
        simp only [hj, map_some, getD_some] at href
        rw [map_some, wireForm_of_carriesKey href.2]
        cases target with
        | base b => simp [TransactionInput.carriesKey] at href
        | pq target => rfl

/-- Reading back an input list whose references are well formed and whose
reference inputs hold the key they name. -/
theorem resolvePqKeyReferences_map_wireForm (href : ∀ i < inputs.length, keyRefOk inputs i = true)
    (hfill : ∀ t ∈ inputs, fillKey inputs t = t) : resolvePqKeyReferences (inputs.map wireForm) = some inputs := by
  rw [resolvePqKeyReferences_eq, if_pos (by
    intro i hi
    rw [keyRefOk_map_wireForm]
    exact href i (by simpa using hi))]
  rw [some.injEq, List.map_map]
  apply ext_getElem?
  intro i
  rw [getElem?_map]
  cases ht : inputs[i]? with
  | none => rfl
  | some t =>
    have hi : i < inputs.length := (List.getElem?_eq_some_iff.mp ht).1
    rw [map_some, Function.comp_apply, fillKey_map_wireForm ht (href i hi), hfill t (mem_of_getElem? ht)]

/-- What a transaction built in memory has to satisfy to survive the wire. -/
structure WireReady (tx : Transaction) : Prop where
  ok : (serializeTransaction tx).ok = true
  refs : ∀ i < tx.inputs.length, keyRefOk tx.inputs i = true
  keys : ∀ t ∈ tx.inputs, fillKey tx.inputs t = t
  sigs : tx.pqSignatures.length = pqSignatureCount tx.inputs
  inputs_lt : tx.inputs.length < 2 ^ 64
  outputs_lt : tx.outputs.length < 2 ^ 64
  extra_le : tx.extra.length ≤ maxBinaryStringSize

theorem fillKey_pq (inputs : List TransactionInput) (inp : PqInput) :
    ∃ key, fillKey inputs (.pq inp) = .pq { inp with authPub := key } := by
  simp only [fillKey]
  split
  · exact ⟨inp.authPub, rfl⟩
  · split
    · exact ⟨_, rfl⟩
    · exact ⟨inp.authPub, rfl⟩

/-- Only the references are looked at, so filling keys in changes nothing. -/
theorem keyRefOk_map_fillKey (inputs : List TransactionInput) (i : Nat) :
    keyRefOk (inputs.map (fillKey inputs)) i = keyRefOk inputs i := by
  have hkeys : ∀ j : Nat, ((inputs.map (fillKey inputs))[j]?).map TransactionInput.carriesKey =
      (inputs[j]?).map TransactionInput.carriesKey := by
    intro j
    rw [getElem?_map, Option.map_map]
    exact congrArg (fun f => Option.map f inputs[j]?) (funext (fillKey_carriesKey inputs))
  unfold keyRefOk
  rw [getElem?_map]
  cases hi : inputs[i]? with
  | none => rfl
  | some t =>
    cases t with
    | base b => rfl
    | pq inp =>
      obtain ⟨key, hkey⟩ := fillKey_pq inputs inp
      simp only [map_some, hkey, PqInput.carriesKey, length_map, hkeys]

/-- A key that is filled in is the key of the input that the reference names, which stays
as it is. -/
theorem fillKey_map_fillKey (ht : inputs[i]? = some t) (href : keyRefOk inputs i = true) :
    fillKey (inputs.map (fillKey inputs)) (fillKey inputs t) = fillKey inputs t := by
  cases t with
  | base b => rfl
  | pq inp =>
    by_cases hno : inp.keyRef = pqNoKeyRef
    · simp [fillKey, hno]
    · simp only [keyRefOk, ht, PqInput.carriesKey, hno, decide_false, Bool.false_or, Bool.and_eq_true] at href
      cases hj : inputs[inp.keyRef.toNat]? with
      | none => simp [hj] at href
      | some target =>
        simp only [hj, map_some, getD_some] at href
        cases target with
        | base b => simp [TransactionInput.carriesKey] at href
        | pq target =>
          have hfill : fillKey inputs _ = _ := fillKey_of_carriesKey href.2
          simp only [fillKey, hno, if_false, hj, getElem?_map, map_some] at hfill ⊢
          rw [hfill]

theorem readPrefix_write {txP : TransactionPrefix} (hok : (serializePrefix txP).ok = true)
    (href : ∀ i < txP.inputs.length, keyRefOk txP.inputs i = true)
    (hfill : ∀ t ∈ txP.inputs, fillKey txP.inputs t = t) (hin : txP.inputs.length < 2 ^ 64)
    (hout : txP.outputs.length < 2 ^ 64) (hextra : txP.extra.length ≤ maxBinaryStringSize) (rest : Bytes) :
    readPrefix ((serializePrefix txP).bytes ++ rest) = some (txP, rest) := by
  have hv : txP.version = transactionVersion1 := by
    by_contra hv
    simp [serializePrefix, hv] at hok
  have hok' : (serializeContainer serializeInput txP.inputs).ok = true ∧
      (serializeContainer serializeOutput txP.outputs).ok = true := by
    simpa [serializePrefix, hv] using hok
  have hlist : Out.each serializeInput (txP.inputs.map wireForm) = Out.each serializeInput txP.inputs := by
    generalize txP.inputs = l
    induction l with
    | nil => rfl
    | cons t l ih => rw [map_cons, Out.each, Out.each, serializeInput_wireForm, ih]
  have hwire : serializeContainer serializeInput (txP.inputs.map wireForm) =
      serializeContainer serializeInput txP.inputs := by
    unfold serializeContainer
    rw [hlist, length_map]
  have hins : ∀ t ∈ txP.inputs.map wireForm, (serializeInput t).ok = true ∧ wireForm t = t := by
    intro t ht
    obtain ⟨t', ht', rfl⟩ := List.mem_map.mp ht
    have hall : (Out.each serializeInput txP.inputs).ok = true := by
      simpa [serializeContainer] using hok'.1
    refine ⟨by rw [serializeInput_wireForm]; exact Out.each_ok.mp hall t' ht', ?_⟩
    cases t' with
    | base b => rfl
    | pq inp =>
      by_cases hno : inp.keyRef = pqNoKeyRef
      · simp [wireForm, hno]
      · simp [wireForm, hno]
  have houts : ∀ o ∈ txP.outputs, (serializeOutput o).ok = true :=
    Out.each_ok.mp (by simpa [serializeContainer] using hok'.2)
  have hbytes : (serializePrefix txP).bytes ++ rest =
      writeVarint8 txP.version ++ (writeVarint8 txP.txType ++ (writeVarint64 txP.unlockHeight ++
        ((serializeContainer serializeInput (txP.inputs.map wireForm)).bytes ++
          ((serializeContainer serializeOutput txP.outputs).bytes ++
            (writeVarint txP.extra.length ++ txP.extra ++ rest))))) := by
    simp [serializePrefix, hv, hwire, Out.andThen_bytes _ hok'.1, Out.andThen_bytes _ hok'.2]
  rw [hbytes]
  simp only [readPrefix, readVarint8_inverts (show True from trivial), bind_eq_bind,
    bind_some, hv, ne_eq, not_true_eq_false, if_false, readVarint64_inverts (show True from trivial),
    readContainer_write readInput_inverts hins (by rw [hwire]; exact hok'.1) (by simpa using hin),
    resolvePqKeyReferences_map_wireForm href hfill,
    readContainer_write readOutput_inverts houts hok'.2 hout, readBinaryString_write hextra, Option.pure_def]
  rw [← hv]

/-- A transaction that is ready for the wire decodes to itself, the keys of its
reference inputs included. -/
theorem fromBinaryArray_toBinaryArray (h : WireReady tx) : fromBinaryArray (toBinaryArray tx) = some tx := by
  have hok : (serializePrefix tx.toTransactionPrefix).ok = true := by
    simpa [serializeTransaction] using h.ok
  rw [fromBinaryArray_eq_some]
  have hbytes : toBinaryArray tx =
      (serializePrefix tx.toTransactionPrefix).bytes ++ tx.pqSignatures.flatMap Subtype.val := by
    rw [toBinaryArray, serializeTransaction, Out.andThen_bytes _ hok, Out.put_bytes]
  have hsig := (readBlob_inverts pqSignatureSize).readMany (fun s (_ : s ∈ tx.pqSignatures) => trivial) []
  rw [append_nil, h.sigs] at hsig
  rw [hbytes]
  simp only [readTransaction, readPrefix_write hok h.refs h.keys h.inputs_lt h.outputs_lt h.extra_le,
    bind_eq_bind, bind_some, hsig, Option.pure_def]

theorem readContainer_lt {α : Type} {r : Reader α} {l : List α} (h : readContainer r s = some (l, rest)) :
    l.length < 2 ^ 64 := by
  simp only [readContainer, bind_eq_bind, bind_eq_some_iff, Prod.exists] at h
  obtain ⟨n, s1, h1, h⟩ := h
  rw [readMany_length h]
  exact readVarint_lt (by omega) h1

theorem readBinaryString_le {b : Bytes} (h : readBinaryString s = some (b, rest)) : b.length ≤ maxBinaryStringSize := by
  simp only [readBinaryString, bind_eq_bind, bind_eq_some_iff, Prod.exists] at h
  obtain ⟨n, s1, -, h⟩ := h
  split at h
  · cases h
  · obtain ⟨-, hlen⟩ := readExact_eq_some.mp h
    omega

/-- What was decoded is ready for the wire. -/
theorem WireReady.of_read (h : readTransaction s = some (tx, rest)) : WireReady tx := by
  have hok := (readTransaction_canonical h).1
  simp only [readTransaction, bind_eq_bind, bind_eq_some_iff, Prod.exists,
    Option.pure_def, some.injEq, Prod.mk.injEq] at h
  obtain ⟨txP, s1, h1, sigs, s2, h2, rfl, rfl⟩ := h
  have hsigs := readMany_length h2
  simp only [readPrefix, bind_eq_bind, bind_eq_some_iff, Prod.exists] at h1
  obtain ⟨version, s3, -, h1⟩ := h1
  split at h1
  · cases h1
  simp only [bind_eq_some_iff, Prod.exists, Option.pure_def, some.injEq, Prod.mk.injEq] at h1
  obtain ⟨txType, s4, -, unlock, s5, -, raw, s6, h6, ins, h7, outs, s8, h8, extra, s9, h9, rfl, rfl⟩ := h1
  rw [resolvePqKeyReferences_eq] at h7
  split at h7
  · rename_i hrefs
    simp only [some.injEq] at h7
    subst h7
    have hlen := readContainer_lt h6
    refine ⟨hok, ?_, ?_, hsigs, by simpa using hlen, readContainer_lt h8, readBinaryString_le h9⟩
    · intro i hi
      rw [keyRefOk_map_fillKey]
      exact hrefs i (by simpa using hi)
    · intro t ht
      obtain ⟨t, hraw, rfl⟩ := List.mem_map.mp ht
      obtain ⟨i, hi, rfl⟩ := getElem_of_mem hraw
      exact fillKey_map_fillKey (getElem?_eq_getElem hi) (hrefs i hi)
  · cases h7

end Discrete.L1
