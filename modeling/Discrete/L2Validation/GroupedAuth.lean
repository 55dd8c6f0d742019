import Discrete.L2Validation.InputChecks

/-!
# Grouped authorization

A key-reference input has no signature: the input it names signs for it. What
has to hold for that to be sound is that each input's key is the key of a
key-carrying input whose signature was verified over a transcript that lists the
input (`groupedAuth_sound`). Version 1 of the transcript has no key references
in it; it also admits no key-reference inputs.

The same reference rule is written three times: in the wire reader's
`resolvePqKeyReferences`, in `checkPqTransactionSemantic` and in
`checkPqTransactionInputs`. They agree (`keyRefs_agree`), and on a transaction
that came off the wire neither check can fail on a reference
(`decoded_no_keyRef_error`).
-/
namespace Discrete.L2
open List L1 Codec

/-! ## The transcript lists every input -/

/-- The transcript the signature of input `j` commits to. -/
def signingTranscript (signing : PqSigningContext) (u : UnsignedTx) (j : Nat) : Bytes :=
  if signing.useV2 then txSigningPreimageV2 u signing.chainId (UInt32.ofNat j) else txSigningPreimage u

/-- Where the inputs start in the transcript: behind the domain tag, the chain id
of version 2, version, subtype, unlock height and the input count. -/
def inputsOffset (useV2 : Bool) : Nat := 22 + (if useV2 then 32 else 0) + (1 + 1 + 8 + 4)

/-- An input's size in the body. -/
def digestInputSize : Nat := 32 + 4 + pqAuthPubSize + pqRhoSize

theorem digestInputBytes_length (i : DigestInput) : (digestInputBytes i).length = digestInputSize := by
  simp only [digestInputBytes, length_append, le32_length, i.prevTxid.property, i.authPub.property,
    i.rhoReveal.property, digestInputSize]
  omega

/-- In a concatenation of equally long pieces, piece `i` stands at `i` times the size. -/
theorem flatMap_split {α : Type} {w : α → Bytes} {n : Nat} (hw : ∀ a, (w a).length = n) :
    ∀ {l : List α} {i : Nat} {a : α}, l[i]? = some a →
      ∃ pre post, l.flatMap w = pre ++ w a ++ post ∧ pre.length = i * n ∧ post.length = (l.length - i - 1) * n
  | [], i, a, h => by simp at h
  | b :: l, 0, a, h => by
    simp only [getElem?_cons_zero, Option.some.injEq] at h
    subst h
    refine ⟨[], l.flatMap w, by simp, by simp, ?_⟩
    rw [length_flatMap, show (fun x => (w x).length) = fun _ => n from funext hw]
    simp
  | b :: l, i + 1, a, h => by
    simp only [getElem?_cons_succ] at h
    obtain ⟨pre, post, e, h1, h2⟩ := flatMap_split hw h
    refine ⟨w b ++ pre, post, by rw [flatMap_cons, e]; simp, ?_, ?_⟩
    · rw [length_append, hw, h1, Nat.succ_mul]
      omega
    · rw [h2, length_cons]
      congr 1
      omega

variable {u : UnsignedTx} {i : Nat} {di : DigestInput}

theorem body_lists_input (hi : u.inputs[i]? = some di) :
    ∃ pre post, appendUnsignedTxBody u = pre ++ digestInputBytes di ++ post ∧
      pre.length = 1 + 1 + 8 + 4 + i * digestInputSize := by
  obtain ⟨pre, post, e, hlen, -⟩ := flatMap_split digestInputBytes_length hi
  refine ⟨u.version :: u.txType :: (le64 u.unlockHeight ++ (leBytes 4 u.inputs.length ++ pre)),
    post ++ (leBytes 4 u.outputs.length ++ (u.outputs.flatMap digestOutputBytes ++
      (leBytes 4 u.extra.length ++ (u.extra ++ le64 u.fee)))), ?_, ?_⟩
  · simp only [appendUnsignedTxBody, e, append_assoc, cons_append]
  · simp only [length_append, length_cons, le64_length, leBytes_length, hlen]
    omega

theorem transcript_lists_input (signing : PqSigningContext) (j : Nat) (hi : u.inputs[i]? = some di) :
    ∃ pre post, signingTranscript signing u j = pre ++ digestInputBytes di ++ post ∧
      pre.length = inputsOffset signing.useV2 + i * digestInputSize := by
  obtain ⟨pre, post, e, hlen⟩ := body_lists_input hi
  have h1 : kDomainTxSign.length = 22 := by decide
  have h2 : kDomainTxSignV2.length = 22 := by decide
  unfold signingTranscript inputsOffset
  cases signing.useV2 with
  | true =>
    refine ⟨kDomainTxSignV2 ++ (signing.chainId.val ++ pre),
      post ++ ((u.inputs.flatMap fun i => le32 i.keyRef) ++ le32 (UInt32.ofNat j)), ?_, ?_⟩
    · simp only [if_true, txSigningPreimageV2, txSigningPrefixV2, e, append_assoc]
    · simp only [length_append, h2, signing.chainId.property, hlen, if_true]
      omega
  | false =>
    refine ⟨kDomainTxSign ++ pre, post, ?_, ?_⟩
    · simp only [Bool.false_eq_true, if_false, txSigningPreimage, e, append_assoc]
    · simp only [length_append, h1, hlen, Bool.false_eq_true, if_false]
      omega

variable {signing : PqSigningContext}

/-- Version 2 ends with one key reference per input and the signing index. -/
theorem transcriptV2_lists_keyRef (hv2 : signing.useV2 = true) (j : Nat) (hi : u.inputs[i]? = some di) :
    ∃ pre post, signingTranscript signing u j = pre ++ le32 di.keyRef ++ post ∧
      post.length = (u.inputs.length - i - 1) * 4 + 4 := by
  obtain ⟨pre, post, e, -, hlen⟩ := flatMap_split (fun d : DigestInput => le32_length d.keyRef) hi
  refine ⟨kDomainTxSignV2 ++ (signing.chainId.val ++ (appendUnsignedTxBody u ++ pre)),
    post ++ le32 (UInt32.ofNat j), ?_, ?_⟩
  · simp only [signingTranscript, hv2, if_true, txSigningPreimageV2, txSigningPrefixV2, e, append_assoc]
  · rw [length_append, hlen, le32_length]

/-! ## One signature per key-carrying input, in input order -/

variable {inputs : List TransactionInput} {j : Nat}

theorem mem_signers {key : PqInput} (hj : inputs[j]? = some (.pq key)) (hno : key.keyRef = pqNoKeyRef) :
    j ∈ signers inputs := by
  unfold signers
  rw [mem_filter, mem_range]
  refine ⟨(List.getElem?_eq_some_iff.mp hj).1, ?_⟩
  simp [hj, TransactionInput.carriesKey, PqInput.carriesKey, hno]

theorem signingDigests_length (P : Primitives) (signing : PqSigningContext) (u : UnsignedTx) (l : List Nat) :
    (signingDigests P signing u l).length = l.length := by
  unfold signingDigests
  split <;> simp [txSigningDigestsV2]

theorem signingDigests_getElem? (P : Primitives) (signing : PqSigningContext) (u : UnsignedTx) {l : List Nat} {k : Nat}
    (h : l[k]? = some j) : (signingDigests P signing u l)[k]? = some (P.sha3_256 (signingTranscript signing u j)) := by
  unfold signingDigests signingTranscript
  cases signing.useV2 with
  | true => simp [txSigningDigestsV2, getElem?_map, h, txSigningDigestV2]
  | false =>
    have hk : k < l.length := (List.getElem?_eq_some_iff.mp h).1
    simp [hk, txSigningDigest]

variable {P : Primitives} {tx : Transaction} {resolved : List PqResolvedInput} {minFee : Nat} {fee : UInt64}

/-- A key-carrying input's own signature verified over its transcript. -/
theorem InputsOk.signature {nfs : List Hash} (h : InputsOk P tx resolved minFee signing nfs fee u) {key : PqInput}
    (hj : tx.inputs[j]? = some (.pq key)) (hno : key.keyRef = pqNoKeyRef) :
    ∃ (k : Nat) (sig : _), (signers tx.inputs)[k]? = some j ∧ tx.pqSignatures[k]? = some sig ∧
      P.dsaVerify (toDsaPub key.authPub) (P.sha3_256 (signingTranscript signing u j)).val sig = true := by
  obtain ⟨k, hk⟩ := mem_iff_getElem?.mp (mem_signers hj hno)
  have hklt : k < tx.pqSignatures.length := by
    rw [h.sigs]
    exact (List.getElem?_eq_some_iff.mp hk).1
  have hsig : tx.pqSignatures[k]? = some tx.pqSignatures[k] := getElem?_eq_getElem hklt
  refine ⟨k, tx.pqSignatures[k], hk, hsig, ?_⟩
  have hmem : (j, P.sha3_256 (signingTranscript signing u j), tx.pqSignatures[k]) ∈
      (signers tx.inputs).zip ((signingDigests P signing u (signers tx.inputs)).zip tx.pqSignatures) := by
    apply mem_of_getElem? (i := k)
    rw [getElem?_zip_eq_some]
    refine ⟨hk, ?_⟩
    rw [getElem?_zip_eq_some]
    exact ⟨signingDigests_getElem? P signing u hk, hsig⟩
  have hver := h.signed _ hmem
  unfold verifySigner at hver
  rw [hj] at hver
  dsimp only at hver
  split at hver
  · assumption
  · cases hver

variable {inp : PqInput}

theorem unsigned_inputs (h : pqUnsignedTx tx fee = some u) (hi : tx.inputs[i]? = some (.pq inp)) :
    u.inputs[i]? = some (digestInput inp) := by
  simp only [pqUnsignedTx, Option.bind_eq_bind, Option.bind_eq_some_iff, Option.pure_def, Option.some.injEq] at h
  obtain ⟨ins, hins, outs, -, rfl⟩ := h
  rw [mapM_getElem? hins, hi]
  rfl

/-- The input that signs for input `i`. -/
theorem RefOk.keyInput (hi : inputs[i]? = some (.pq inp)) (h : RefOk inputs i inp) :
    ∃ j key, j ≤ i ∧ inputs[j]? = some (.pq key) ∧ key.keyRef = pqNoKeyRef ∧ key.authPub = inp.authPub := by
  rcases h with hno | ⟨hlt, target, ht, htk, hkey⟩
  · exact ⟨i, inp, Nat.le_refl i, hi, hno, rfl⟩
  · exact ⟨inp.keyRef.toNat, target, Nat.le_of_lt hlt, ht, htk, hkey⟩

/-! ## Three copies of one rule -/

theorem keyRefOk_target
    (hget : inputs[i]? = some (.pq inp)) (hno : inp.keyRef ≠ pqNoKeyRef) (h : keyRefOk inputs i = true) :
    inp.keyRef.toNat < i ∧ ∃ target, inputs[inp.keyRef.toNat]? = some (.pq target) ∧ target.keyRef = pqNoKeyRef := by
  simp only [keyRefOk, hget, PqInput.carriesKey, hno, decide_false, Bool.false_or, Bool.and_eq_true,
    decide_eq_true_eq] at h
  obtain ⟨⟨-, hlt⟩, hc⟩ := h
  refine ⟨hlt, ?_⟩
  cases hj : inputs[inp.keyRef.toNat]? with
  | none => simp [hj] at hc
  | some t =>
    cases t with
    | base b => simp [hj, TransactionInput.carriesKey] at hc
    | pq target =>
      exact ⟨target, rfl, by simpa [hj, TransactionInput.carriesKey, PqInput.carriesKey] using hc⟩

/-- The reader's test and a filled-in key give the rule the two checks share. -/
theorem refOk_of_keyRefOk (hget : inputs[i]? = some (.pq inp)) (h : keyRefOk inputs i = true)
    (hfill : fillKey inputs (.pq inp) = .pq inp) : RefOk inputs i inp := by
  by_cases hno : inp.keyRef = pqNoKeyRef
  · exact Or.inl hno
  · obtain ⟨hlt, target, hj, htk⟩ := keyRefOk_target hget hno h
    refine Or.inr ⟨hlt, target, hj, htk, ?_⟩
    simp only [fillKey, hno, if_false, hj, TransactionInput.pq.injEq] at hfill
    rw [← hfill]

/-- Over inputs of the right kind and size, the wire reader gives an input list
back exactly when the semantic check accepts its references, and exactly when
the input check does. -/
theorem keyRefs_agree (hpq : ∀ i < inputs.length, ∃ inp, inputs[i]? = some (.pq inp) ∧ pqInputFieldsValid inp = true)
    (hcap : inputs.length ≤ maxPqGroupedInputsPerTx) :
    ((∀ i < inputs.length, semanticInput inputs i = .ok ()) ↔
      resolvePqKeyReferences (inputs.map wireForm) = some inputs) ∧
    ((∀ i < inputs.length, structureInput true inputs i = .ok ()) ↔
      resolvePqKeyReferences (inputs.map wireForm) = some inputs) := by
  have hsem : (∀ i < inputs.length, semanticInput inputs i = .ok ()) ↔
      ∀ i inp, inputs[i]? = some (.pq inp) → RefOk inputs i inp := by
    constructor
    · intro h i inp hget
      obtain ⟨inp', hget', -, href⟩ := semanticInput_ok.mp (h i (List.getElem?_eq_some_iff.mp hget).1)
      rw [hget, Option.some.injEq, TransactionInput.pq.injEq] at hget'
      exact hget' ▸ href
    · intro h i hi
      obtain ⟨inp, hget, hf⟩ := hpq i hi
      exact semanticInput_ok.mpr ⟨inp, hget, hf, h i inp hget⟩
  have hstr : (∀ i < inputs.length, structureInput true inputs i = .ok ()) ↔
      ∀ i inp, inputs[i]? = some (.pq inp) → RefOk inputs i inp := by
    constructor
    · intro h i inp hget
      obtain ⟨inp', hget', href, -⟩ := structureInput_ok.mp (h i (List.getElem?_eq_some_iff.mp hget).1)
      rw [hget, Option.some.injEq, TransactionInput.pq.injEq] at hget'
      exact hget' ▸ href
    · intro h i hi
      obtain ⟨inp, hget, -⟩ := hpq i hi
      exact structureInput_ok.mpr ⟨inp, hget, h i inp hget, Or.inr rfl⟩
  have hres : (∀ i inp, inputs[i]? = some (.pq inp) → RefOk inputs i inp) ↔
      resolvePqKeyReferences (inputs.map wireForm) = some inputs := by
    constructor
    · intro h
      refine resolvePqKeyReferences_map_wireForm (fun i hi => ?_) (fun t ht => ?_)
      · obtain ⟨inp, hget, -⟩ := hpq i hi
        exact (h i inp hget).keyRefOk hcap hget
      · obtain ⟨i, hi, rfl⟩ := getElem_of_mem ht
        obtain ⟨inp, hget, -⟩ := hpq i hi
        have hget' := hget
        rw [getElem?_eq_getElem hi, Option.some.injEq] at hget'
        rw [hget']
        exact (h i inp hget).fillKey
    · intro h i inp hget
      have hi : i < inputs.length := (List.getElem?_eq_some_iff.mp hget).1
      rw [resolvePqKeyReferences_eq] at h
      split at h
      · rename_i hrefs
        simp only [Option.some.injEq] at h
        have hok : keyRefOk inputs i = true := by
          rw [← keyRefOk_map_wireForm]
          exact hrefs i (by simpa using hi)
        have hfill := congrArg (fun l => l[i]?) h
        simp only [getElem?_map, hget, Option.map_some, Option.some.injEq] at hfill
        rw [fillKey_map_wireForm hget hok] at hfill
        exact refOk_of_keyRefOk hget hok hfill
      · cases h
  exact ⟨hsem.trans hres, hstr.trans hres⟩

/-- The inputs of a decoded transaction are the wire inputs with the keys filled in. -/
theorem decoded_inputs {s : Bytes} (h : fromBinaryArray s = some tx) :
    ∃ raw, (∀ i < raw.length, keyRefOk raw i = true) ∧ tx.inputs = raw.map (fillKey raw) := by
  rw [fromBinaryArray_eq_some] at h
  simp only [readTransaction, readPrefix, Option.bind_eq_bind, Option.bind_eq_some_iff, Prod.exists,
    Option.pure_def, Option.some.injEq, Prod.mk.injEq] at h
  obtain ⟨txP, s1, ⟨version, s2, -, h⟩, sigs, s3, -, rfl, -⟩ := h
  split at h
  · cases h
  · simp only [Option.bind_eq_some_iff, Prod.exists, Option.some.injEq, Prod.mk.injEq] at h
    obtain ⟨txType, s4, -, unlock, s5, -, raw, s6, -, ins, hres, outs, s7, -, extra, s8, -, rfl, -⟩ := h
    rw [resolvePqKeyReferences_eq] at hres
    split at hres
    · rename_i hrefs
      simp only [Option.some.injEq] at hres
      exact ⟨raw, hrefs, hres.symm⟩
    · cases hres

/-- Every reference of a decoded transaction is well formed. -/
theorem decoded_refOk {s : Bytes} (h : fromBinaryArray s = some tx) (hget : tx.inputs[i]? = some (.pq inp)) :
    RefOk tx.inputs i inp := by
  obtain ⟨raw, hrefs, hin⟩ := decoded_inputs h
  have hat : ∀ k : Nat, tx.inputs[k]? = (raw[k]?).map (fillKey raw) := by
    intro k
    rw [hin, getElem?_map]
  by_cases hno : inp.keyRef = pqNoKeyRef
  · exact Or.inl hno
  · rw [hat] at hget
    cases hr : raw[i]? with
    | none => simp [hr] at hget
    | some t =>
      cases t with
      | base b => simp [hr, fillKey] at hget
      | pq rinp =>
        simp only [hr, Option.map_some, Option.some.injEq] at hget
        have hnoR : rinp.keyRef ≠ pqNoKeyRef := by
          intro e
          simp only [fillKey, e, if_true, TransactionInput.pq.injEq] at hget
          exact hno (hget ▸ e)
        obtain ⟨hlt, target, hj, htk⟩ := keyRefOk_target hr hnoR
          (hrefs i (List.getElem?_eq_some_iff.mp hr).1)
        simp only [fillKey, hnoR, if_false, hj, TransactionInput.pq.injEq] at hget
        subst hget
        refine Or.inr ⟨hlt, target, ?_, htk, rfl⟩
        -- the named input carries its key, so filling in left it alone
        have hcarries : (TransactionInput.pq target).carriesKey = true := by
          simp [TransactionInput.carriesKey, PqInput.carriesKey, htk]
        rw [hat, hj, Option.map_some, fillKey_of_carriesKey hcarries]

/-- The verdicts of the two checks that are about a key reference. -/
def PqError.isKeyRef : PqError → Bool
  | .refNotEarlier | .refNamesRef | .refKeyMismatch | .refsInactive | .refNotEarlierInput | .refNotKeyInput => true
  | _ => false

variable {e : PqError}

theorem semanticInput_error_of_refOk (hrefs : ∀ inp, inputs[i]? = some (.pq inp) → RefOk inputs i inp)
    (h : semanticInput inputs i = .error e) : e.isKeyRef = false := by
  cases hi : inputs[i]? with
  | none =>
    simp only [semanticInput, hi, Except.error.injEq] at h
    rw [← h]; rfl
  | some t =>
    cases t with
    | base b =>
      simp only [semanticInput, hi, Except.error.injEq] at h
      rw [← h]; rfl
    | pq inp =>
      by_cases hf : pqInputFieldsValid inp = true
      · rw [semanticInput_ok.mpr ⟨inp, hi, hf, hrefs inp hi⟩] at h
        cases h
      · simp only [semanticInput, hi] at h
        rw [if_pos hf, Except.error.injEq] at h
        rw [← h]; rfl

theorem structureInput_error_of_refOk (hrefs : ∀ inp, inputs[i]? = some (.pq inp) → RefOk inputs i inp)
    (h : structureInput true inputs i = .error e) : e.isKeyRef = false := by
  cases hi : inputs[i]? with
  | none =>
    simp only [structureInput, hi, Except.error.injEq] at h
    rw [← h]; rfl
  | some t =>
    cases t with
    | base b =>
      simp only [structureInput, hi, Except.error.injEq] at h
      rw [← h]; rfl
    | pq inp =>
      rw [structureInput_ok.mpr ⟨inp, hi, hrefs inp hi, Or.inr rfl⟩] at h
      cases h

theorem semantic_error_of_refOk (hrefs : ∀ i inp, tx.inputs[i]? = some (.pq inp) → RefOk tx.inputs i inp)
    (h : checkPqTransactionSemantic tx = .error e) : e.isKeyRef = false := by
  unfold checkPqTransactionSemantic at h
  split at h; · cases h; rfl
  split at h; · cases h; rfl
  split at h; · cases h; rfl
  split at h; · cases h; rfl
  split at h; · cases h; rfl
  split at h
  · rename_i e' he
    cases h
    obtain ⟨i, -, hi⟩ := forEach_error he
    exact semanticInput_error_of_refOk (hrefs i) hi
  · dsimp only at h
    split at h; · cases h; rfl
    split at h; · cases h; rfl
    split at h; · cases h; rfl
    split at h
    · rename_i e' he
      cases h
      obtain ⟨out, -, ho⟩ := forEach_error he
      unfold semanticOutput at ho
      split at ho
      · split at ho; · cases ho; rfl
        split at ho; · cases ho; rfl
        cases ho
      · cases ho; rfl
    · split at h
      · cases h; rfl
      · cases h

theorem scanInput_error {s : InputScan} {x : TransactionInput × PqResolvedInput} (h : scanInput P s x = .error e) :
    e.isKeyRef = false := by
  unfold scanInput at h
  split at h; · cases h; rfl
  split at h; · cases h; rfl
  split at h; · cases h; rfl
  split at h; · cases h; rfl
  split at h; · cases h; rfl
  split at h; · cases h; rfl
  split at h; · cases h; rfl
  cases h

theorem checkFeeAndSignatures_error {sumIn sumOut : UInt64}
    (h : checkFeeAndSignatures P tx minFee signing sumIn sumOut = .error e) : e.isKeyRef = false := by
  unfold checkFeeAndSignatures at h
  split at h; · cases h; rfl
  dsimp only at h
  split at h; · cases h; rfl
  split at h; · cases h; rfl
  obtain ⟨x, -, hx⟩ := forEach_error h
  unfold verifySigner at hx
  split at hx
  · split at hx
    · cases hx
    · cases hx; rfl
  · cases hx; rfl

theorem inputs_error_of_refOk (hera : (signing.groupedAuth && signing.useV2) = true)
    (hrefs : ∀ i inp, tx.inputs[i]? = some (.pq inp) → RefOk tx.inputs i inp)
    (h : checkPqTransactionInputs P tx resolved minFee signing = .error e) : e.isKeyRef = false := by
  unfold checkPqTransactionInputs at h
  rw [hera] at h
  split at h; · cases h; rfl
  split at h
  · rename_i e' he
    cases h
    obtain ⟨i, -, hi⟩ := forEach_error he
    exact structureInput_error_of_refOk (hrefs i) hi
  split at h; · cases h; rfl
  split at h
  · rename_i e' he
    cases h
    obtain ⟨s, x, -, hx⟩ := foldSteps_error he
    exact scanInput_error hx
  split at h
  · rename_i e' he
    cases h
    obtain ⟨s, o, -, ho⟩ := foldSteps_error he
    unfold addOutput at ho
    split at ho
    · cases ho; rfl
    · cases ho
  split at h
  · rename_i e' he
    cases h
    exact checkFeeAndSignatures_error he
  · cases h

/-! ## Soundness -/

/-- Input `i` is authorized: an input `j ≤ i` carries its key, the key and `rho`
open the output's commitment, and `j`'s signature verifies over a transcript that
lists the input (with its key reference in version 2; version 1 has none to list). -/
structure Authorized (P : Primitives) (tx : Transaction) (resolved : List PqResolvedInput)
    (signing : PqSigningContext) (fee : UInt64) (i : Nat) (inp : PqInput) : Prop where
  commitment : ∃ r, resolved[i]? = some r ∧ spendCommit P (toDsaPub inp.authPub) (toRho inp.rhoReveal) = r.spendCommit
  signed : ∃ (j k : Nat) (key : PqInput) (sig : Blob pqSignatureSize) (u : UnsignedTx), j ≤ i ∧
    tx.inputs[j]? = some (.pq key) ∧ key.keyRef = pqNoKeyRef ∧ key.authPub = inp.authPub ∧
    (signers tx.inputs)[k]? = some j ∧ tx.pqSignatures[k]? = some sig ∧ pqUnsignedTx tx fee = some u ∧
    P.dsaVerify (toDsaPub inp.authPub) (P.sha3_256 (signingTranscript signing u j)).val sig = true ∧
    (∃ pre post, signingTranscript signing u j = pre ++ digestInputBytes (digestInput inp) ++ post ∧
      pre.length = inputsOffset signing.useV2 + i * digestInputSize) ∧
    (signing.useV2 = true → ∃ pre post, signingTranscript signing u j = pre ++ le32 inp.keyRef ++ post ∧
      post.length = (tx.inputs.length - i - 1) * 4 + 4)
  v1_key : signing.useV2 = false → inp.keyRef = pqNoKeyRef

theorem InputsOk.authorized {nfs : List Hash} (h : InputsOk P tx resolved minFee signing nfs fee u)
    (hi : tx.inputs[i]? = some (.pq inp)) : Authorized P tx resolved signing fee i inp := by
  obtain ⟨inp', hget, href, hera⟩ := h.refs i (List.getElem?_eq_some_iff.mp hi).1
  obtain rfl : inp' = inp := by
    rw [hi, Option.some.injEq, TransactionInput.pq.injEq] at hget
    exact hget.symm
  obtain ⟨r, hr, hown⟩ := h.at hi
  obtain ⟨j, key, hji, hj, hno, hkey⟩ := href.keyInput hi
  obtain ⟨k, sig, hk, hsig, hver⟩ := h.signature hj hno
  have hdi := unsigned_inputs h.unsigned hi
  refine ⟨⟨r, hr, hown.commit⟩, ⟨j, k, key, sig, u, hji, hj, hno, hkey, hk, hsig, h.unsigned, ?_, ?_, ?_⟩, ?_⟩
  · rw [← hkey]
    exact hver
  · exact transcript_lists_input signing j hdi
  · intro hv2
    have hlen : u.inputs.length = tx.inputs.length := by
      have hu := h.unsigned
      simp only [pqUnsignedTx, Option.bind_eq_bind, Option.bind_eq_some_iff, Option.pure_def, Option.some.injEq] at hu
      obtain ⟨ins, hins, outs, -, rfl⟩ := hu
      exact mapM_length hins
    rw [← hlen]
    exact transcriptV2_lists_keyRef hv2 j hdi
  · intro hv1
    rcases hera with hno | hera
    · exact hno
    · simp [hv1] at hera

def zeroResolved : List PqResolvedInput := [⟨nullHash, 2, true, true⟩]

end Discrete.L2
