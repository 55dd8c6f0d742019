import Discrete.L6Wallet.Sender

/-!
# From the selection to the result (`PqSender.cpp`)

Once the inputs of a payment are selected, `buildPqSend` builds a draft, measures it
and proves each payment. With libraries that keep their contracts only the measuring
can fail:

* `buildDraft_ok`: a selection that covers the payment is built, because the caps it
  keeps are those of the builder. The keys it counts are bucket numbers; the builder
  counts spend keys, of which there are no more (`authForSelection_keys`).
* `paymentProofs_ok`: the proofs of a draft verify.
* `Built.fits`: a draft is within the size limit whatever its inputs, unless its
  outputs and its extra take more than 71972 bytes.
-/
namespace Discrete.L6
open List L1 L2 L3 Codec Greedy

/-- `static_assert(PQ_GROUPED_AUTH_HEIGHT >= PQ_TRANSCRIPT_V2_HEIGHT)`
mirrors src/CryptoNoteConfig.h:230-231 -/
def Scheduled (c : Currency) : Prop := c.pqTranscriptV2Height ≤ c.pqGroupedAuthHeight

section
variable {E : WalletEnv} {keys : PqWalletKeys} {req : PqSendRequest}

theorem signingContext_grouped (hs : Scheduled E.currency) :
    (signingContext E req).groupedAuth = true → (signingContext E req).useV2 = true := by
  simp only [signingContext, Currency.pqSigningContextForHeight, decide_eq_true_eq]
  exact fun h => Nat.le_trans hs h

/-! ## Keys -/

/-- Inputs of one group are signed with one key. -/
theorem authFor_keyGroupOf (W : WalletPrimitives) (keys : PqWalletKeys) (scheme : PqDepositScheme) (si : PqSpendInput) :
    authFor W keys scheme si.depositIndex = authFor W keys scheme (keyGroupOf scheme si) := by
  unfold keyGroupOf
  split
  · rename_i h
    have hwallet : scheme = .singleKeyIndex ∨ si.depositIndex = pqPrimaryDeposit ∨
        si.depositIndex = pqUnattributedDeposit := h.imp_right .inr
    rw [authFor, if_pos hwallet, authFor, if_pos (.inr (.inl rfl))]
  · rfl

/-- There are no more spend keys than groups. -/
theorem authForSelection_keys (sel : List PqSpendInput) :
    ((sel.zip (authForSelection E.W keys req.scheme sel)).map fun x => x.2.spendPub).toFinset.card ≤
      (keySet (keyGroupOf req.scheme) sel).card := by
  have hsub : ((sel.zip (authForSelection E.W keys req.scheme sel)).map fun x => x.2.spendPub).toFinset ⊆
      (keySet (keyGroupOf req.scheme) sel).image fun g => (authFor E.W keys req.scheme g).spendPub := by
    intro p hp
    rw [zip_authForSelection, keyed, List.map_map, List.mem_toFinset] at hp
    obtain ⟨si, hsi, rfl⟩ := List.mem_map.mp hp
    refine Finset.mem_image.mpr ⟨keyGroupOf req.scheme si, mem_keySet.mpr ⟨si, hsi, rfl⟩, ?_⟩
    rw [← authFor_keyGroupOf]
    rfl
  exact (Finset.card_le_card hsub).trans Finset.card_image_le

/-! ## Building -/

theorem Totals.sent_pos {sent fee : UInt64} (ht : Totals req sent fee) : 0 < sent.toNat := by
  obtain ⟨r, l, hl⟩ := exists_cons_of_ne_nil ht.recipients_ne
  have hr := UInt64.pos_iff_ne_zero.mpr (ht.amounts r (by simp [hl]))
  rw [UInt64.lt_iff_toNat_lt, UInt64.toNat_zero] at hr
  rw [ht.sent_eq, hl, map_cons, sum_cons]
  omega

theorem sendOutputs_sum (keys : PqWalletKeys) {sent fee : UInt64} (ht : Totals req sent fee) (change : UInt64) :
    ((sendOutputs keys req change).map fun so => so.amount.toNat).sum = sent.toNat + change.toNat := by
  unfold sendOutputs
  split
  · simp [ht.sent_eq]
  · rename_i hno
    have hzero : change = 0 := by
      by_contra hne
      exact hno (UInt64.pos_iff_ne_zero.mpr hne)
    simp [ht.sent_eq, hzero]

theorem sendOutputs_length_le (keys : PqWalletKeys) (req : PqSendRequest) (change : UInt64) :
    req.recipients.length ≤ (sendOutputs keys req change).length ∧
      (sendOutputs keys req change).length ≤ req.recipients.length + 1 := by
  unfold sendOutputs
  split <;> simp

/-- A selection that covers the payment is built. -/
theorem buildDraft_ok (hW : E.W.Correct) (hs : Scheduled E.currency) (keys : PqWalletKeys) {sent fee : UInt64}
    (ht : Totals req sent fee) {s : Selection req.scheme (capsFor (signingContext E req))} (hle : sent + fee ≤ s.sum)
    (coins : Nat → OutputCoins) : ∃ draft, buildDraft E keys req (sent + fee) s coins = .ok draft := by
  have hsent := ht.sent_pos
  have hchange : (s.sum - (sent + fee)).toNat = weight amountOf s.inputs - (sent.toNat + fee.toNat) := by
    rw [UInt64.toNat_sub_of_le _ _ hle, s.sum_eq, ht.required]
  rw [UInt64.le_iff_toNat_le, s.sum_eq, ht.required] at hle
  have hlen := sendOutputs_length_le keys req (s.sum - (sent + fee))
  apply buildPqTransactionWithProof_ok hW
  · intro hnil
    rw [hnil, weight_nil] at hle
    omega
  · intro hnil
    rw [hnil, length_nil] at hlen
    exact ht.recipients_ne (length_eq_zero_iff.mp (Nat.le_zero.mp hlen.1))
  · exact length_map _
  · exact signingContext_grouped hs
  · exact s.feasible.total
  · exact hlen.2.trans ht.count
  · intro _
    exact (authForSelection_keys s.inputs).trans s.feasible.keys
  · rw [← s.sum_eq]
    exact s.sum.toNat_lt
  · rw [sendOutputs_sum keys ht, hchange]
    omega

/-! ## Size -/

section
variable {W : WalletPrimitives} {inputs : List PqSpendInput} {outputs : List PqSendOutput}
  {inputAuth : List PqInputAuth} {extra : Bytes} {signing : PqSigningContext} {txType : UInt8}
  {coins : Nat → OutputCoins} {r : PqTransactionBuildResult} {fee : UInt64} {u : UnsignedTx}

/-- Inputs at both caps still leave room for small outputs. -/
theorem Built.fits (h : Built W inputs outputs inputAuth extra signing txType coins r fee u)
    (hroom : outputSizeBound * outputs.length + extra.length ≤ 71972) : (toBinaryArray r.tx).length ≤ maxPqTxSize := by
  have hsize := toBinaryArray_length_le r.tx
  have hinputs : r.tx.inputs.length ≤ 256 := by
    rw [h.tx_inputs, length_map, spendInputs_length, length_zip]
    exact (Nat.min_le_left _ _).trans h.inputs_le
  have hkeys : pqSignatureCount r.tx.inputs ≤ 32 := h.keys_le
  rw [h.signatures_length, signers_length, h.tx_outputs_length, h.tx_extra] at hsize
  unfold pqAuthPubSize pqSignatureSize at hsize
  unfold maxPqTxSize
  omega

/-! ## Proofs -/

/-- What the verifier reads of the output in position `i`. -/
theorem Built.proofOutput (hW : W.Correct) (h : Built W inputs outputs inputAuth extra signing txType coins r fee u)
    {i : Nat} {so : PqSendOutput} (hi : outputs[i]? = some so) :
    ∃ out rho scanned, r.tx.outputs[i]? = some out ∧ r.outputRhos[i]? = some rho ∧ out.amount = so.amount ∧
      L6.proofOutput i out = some scanned ∧ scanned.outputIndex = UInt32.ofNat i ∧ scanned.amount = so.amount ∧
      spendCommit W.toPrimitives so.recipientSpendPub rho = scanned.spendCommit := by
  obtain ⟨out, rho, hout, hrho, ⟨b, hb, rfl, rfl⟩⟩ := h.tx_outputs i so hi
  have hfields : pqOutputFieldsValid ⟨b.kemCt.val, b.encPayload, b.spendCommit⟩ = true := by
    simp [pqOutputFieldsValid, buildPqOutput_sizes hW hb, b.kemCt.property]
  have hcommit : spendCommit W.toPrimitives so.recipientSpendPub b.rho = b.spendCommit := by
    rw [buildPqOutput_eq hW, Option.some.injEq] at hb
    rw [← hb]
    rfl
  exact ⟨_, b.rho, ⟨UInt32.ofNat i, so.amount, toArray _ b.kemCt.val, b.encPayload, b.spendCommit⟩, hout, hrho, rfl,
    by simp [L6.proofOutput, hfields], rfl, rfl, hcommit⟩

theorem Built.proofTransaction (hW : W.Correct)
    (h : Built W inputs outputs inputAuth extra signing txType coins r fee u) :
    ∃ proofTx, makePqPaymentProofTransaction W r.tx = some proofTx ∧
      ∀ i, proofTx.outputs[i]? = (r.tx.outputs[i]?).bind (L6.proofOutput i) := by
  obtain ⟨scanned, hscanned⟩ := mapM_isSome (f := fun i => (r.tx.outputs[i]?).bind (L6.proofOutput i))
    (l := List.range r.tx.outputs.length) fun i hi => by
      rw [mem_range, h.tx_outputs_length] at hi
      obtain ⟨out, -, scanned, hout, -, -, hs, -⟩ := h.proofOutput hW (getElem?_eq_getElem hi)
      simp [hout, hs]
  refine ⟨⟨getObjectHash W.toPrimitives r.tx, pqTransactionInputsHash W r.tx.toTransactionPrefix, scanned⟩,
    by rw [makePqPaymentProofTransaction, hscanned]; rfl, fun i => ?_⟩
  show scanned[i]? = _
  rw [mapM_getElem? hscanned i]
  by_cases hi : i < r.tx.outputs.length
  · rw [getElem?_range hi]
    rfl
  · rw [getElem?_eq_none (by simpa using hi), getElem?_eq_none (by simpa using hi)]
    rfl

end

/-- The proofs of a draft verify. -/
theorem paymentProofs_ok (hW : E.W.Correct) {inputs : List PqSpendInput} {inputAuth : List PqInputAuth}
    {signing : PqSigningContext} {txType : UInt8} {coins : Nat → OutputCoins} {draft : PqTransactionBuildResult}
    {fee change : UInt64} {u : UnsignedTx}
    (h : Built E.W inputs (sendOutputs keys req change) inputAuth req.extra signing txType coins draft fee u) :
    ∃ proofs, paymentProofs E req draft = .ok proofs := by
  have hlen := (sendOutputs_length_le keys req change).1
  have hcap := h.outputs_le
  obtain ⟨proofTx, hproofTx, hget⟩ := h.proofTransaction hW
  have hcounts : ¬ (draft.outputRhos.length ≠ draft.tx.outputs.length ∨
      draft.tx.outputs.length < req.recipients.length) := by
    rw [h.rhos_length, h.tx_outputs_length]
    omega
  rw [paymentProofs, if_neg hcounts, hproofTx]
  cases hall : req.recipients.zipIdx.mapM (paymentProof E req draft proofTx) with
  | ok proofs => exact ⟨proofs, hall⟩
  | error e =>
    -- no row fails: the output in its place commits to the recipient's key
    obtain ⟨⟨so, i⟩, hmem, he⟩ := mapM_error hall
    have hrow : req.recipients[i]? = some so := mk_mem_zipIdx_iff_getElem?.mp hmem
    have hi : i < req.recipients.length := (List.getElem?_eq_some_iff.mp hrow).1
    have hout : (sendOutputs keys req change)[i]? = some so := by
      unfold sendOutputs
      split
      · rw [getElem?_append_left hi, hrow]
      · exact hrow
    obtain ⟨out, rho, scanned, hget1, hget2, hamount, hscan, hindex, hsamount, hcommit⟩ := h.proofOutput hW hout
    have hnat : (UInt32.ofNat i).toNat = i := by
      unfold maxPqOutputsPerTx at hcap
      rw [UInt32.toNat_ofNat']
      omega
    have hproofOut : proofTx.outputs[(UInt32.ofNat i).toNat]? = some scanned := by
      rw [hnat, hget, hget1, Option.bind_some, hscan]
    obtain ⟨proof, hmake, hverify⟩ := @verifyPqPaymentProof_single E.W req.genesisId proofTx
      ⟨so.recipientViewPub, so.recipientSpendPub, so.subaddrIndexT⟩ ⟨UInt32.ofNat i, rho⟩ scanned
      hproofOut hindex hcommit
    rw [hsamount] at hverify
    simp [paymentProof, hget1, hget2, hamount, hmake, hverify] at he

/-! ## The result -/

/-- A first draft within the limit is kept. -/
theorem draftLoop_fits {required : UInt64} {caps : InputCaps} {coins : Nat → Nat → OutputCoins}
    {swept attempt : Nat} {s : Selection req.scheme caps} {draft : PqTransactionBuildResult}
    (hbuild : buildDraft E keys req required s (coins attempt) = .ok draft)
    (hsize : (toBinaryArray draft.tx).length ≤ maxPqTxSize) :
    draftLoop E keys req required coins swept attempt s = .ok (draft, s) := by
  unfold draftLoop
  rw [hbuild]
  dsimp only
  rw [if_pos hsize]

/-- A payment that is covered, with outputs and extra that leave room for any inputs,
goes out with the inputs selected for it. -/
theorem buildPqSend_ok (hW : E.W.Correct) (hs : Scheduled E.currency) (keys : PqWalletKeys)
    (coins : Nat → Nat → OutputCoins) (available : List PqSpendInput) {sent fee : UInt64}
    (htotals : sendTotals req = .ok (sent, fee))
    (hcovered : sent + fee ≤ (cover req.scheme (capsFor (signingContext E req)) (sent + fee)
      (candidates E available req)).1.sum)
    (hselected : sent + fee ≤ (selectionFor E req available (sent + fee)).sum)
    (hroom : outputSizeBound * (req.recipients.length + 1) + req.extra.length ≤ 71972) :
    ∃ r, buildPqSend E keys req coins available = .ok r ∧
      r.selected = (selectionFor E req available (sent + fee)).inputs ∧ r.sent = sent ∧ r.fee = fee ∧
      r.change = (selectionFor E req available (sent + fee)).sum - (sent + fee) := by
  obtain ⟨draft, hdraft⟩ := buildDraft_ok hW hs keys (Totals.of_ok htotals) hselected (coins 0)
  obtain ⟨fee', u, hbuilt⟩ := Built.of_ok hdraft
  have hlen := (sendOutputs_length_le keys req
    ((selectionFor E req available (sent + fee)).sum - (sent + fee))).2
  have hsize := hbuilt.fits ((Nat.add_le_add_right (Nat.mul_le_mul_left _ hlen) _).trans hroom)
  obtain ⟨proofs, hproofs⟩ := paymentProofs_ok hW hbuilt
  refine ⟨⟨draft.tx, fee, sent, (selectionFor E req available (sent + fee)).sum - (sent + fee),
    (selectionFor E req available (sent + fee)).inputs, proofs⟩, ?_, rfl, rfl, rfl, rfl⟩
  unfold buildPqSend
  rw [htotals]
  dsimp only
  rw [if_neg (UInt64.not_lt.mpr hcovered)]
  have hloop : draftLoop E keys req (sent + fee) coins ((selectionFor E req available (sent + fee)).inputs.length -
      (cover req.scheme (capsFor (signingContext E req)) (sent + fee) (candidates E available req)).1.inputs.length)
      0 (selectionFor E req available (sent + fee)) = .ok (draft, selectionFor E req available (sent + fee)) :=
    draftLoop_fits hdraft hsize
  unfold selectionFor at hloop ⊢
  dsimp only at hloop ⊢
  rw [hloop]
  dsimp only
  rw [hproofs]

end

end Discrete.L6
