import Discrete.L3Ledger.Chain
import Discrete.L6Wallet.Builder
import Discrete.L6Wallet.PaymentProof

/-!
# Sending (`PqSender.cpp`)

`buildPqSend` turns a request into a signed transfer: totals, selection, sweep,
build (shedding swept inputs while the transfer is over the size limit) and one
payment proof per recipient.

* `selection_complete_iff`: the two errors about funds are right exactly when the
  keys that come first in the largest-first order suffice; `payable_refused` is a
  payment that is refused as needing too many inputs though 41 of the 256 allowed
  would do.
* `sent_transfer_valid`: what `buildPqSend` returns passes both consensus checks,
  pays every recipient what was asked, and balances.
-/
namespace Discrete.L6
open List hiding toArray
open L1 L2 L3 Codec Greedy

structure PqSendRequest where
  recipients : List PqSendOutput
  explicitFee : UInt64
  unlockHeight : UInt64
  extra : Bytes
  genesisId : Hash
  signingHeight : UInt32
  deliveryV2Height : UInt32
  scheme : PqDepositScheme
  sourceBuckets : List UInt32
  /-- `changeDest` when `hasChangeDest` is set -/
  changeDest : Option PqSendOutput
  sweepSmallInputs : Bool

structure PqSendResult where
  tx : Transaction
  fee : UInt64
  sent : UInt64
  change : UInt64
  selected : List PqSpendInput
  proofs : List PqPaymentProof

inductive PqSendErrorCode where
  | noRecipients | zeroAmount | insufficientFunds | tooLarge | unsupportedUnlockHeight
  deriving DecidableEq, Repr

/-- One constructor for each throw of `buildPqSend`; the last six are
`std::runtime_error`s, the others `PqSendError`s. -/
inductive SendError where
  | noRecipients | unsupportedUnlockHeight | zeroAmount | recipientOverflow | tooManyRecipients | feeOverflow
  | needsMoreInputs (totalInputs : Nat) | insufficientFunds | sizeLimit
  | build (e : BuildError) | provenance | malformedOutput | incompleteProof | proof (e : PqPaymentProofError)
  | proofTotal
  deriving DecidableEq, Repr

def SendError.code : SendError → Option PqSendErrorCode
  | .noRecipients => some .noRecipients
  | .unsupportedUnlockHeight => some .unsupportedUnlockHeight
  | .zeroAmount => some .zeroAmount
  | .recipientOverflow | .tooManyRecipients | .feeOverflow | .needsMoreInputs _ | .sizeLimit => some .tooLarge
  | .insufficientFunds => some .insufficientFunds
  | .build _ | .provenance | .malformedOutput | .incompleteProof | .proof _ | .proofTotal => none

def SendError.text : SendError → String
  | .noRecipients => "no recipients"
  | .unsupportedUnlockHeight =>
    "TX_PQ does not support tx-level unlockHeight; use per-output unlockHeight"
  | .zeroAmount => "zero-amount recipient"
  | .recipientOverflow => "recipient amount overflow"
  | .tooManyRecipients => "too many recipients for one PQ transaction; split into smaller transfers"
  | .feeOverflow => "payment plus fee overflow"
  | .needsMoreInputs n =>
    "amount is too large to send in one transaction (it would need more than " ++ toString n ++
      " inputs); send a smaller amount, or consolidate your outputs first"
  | .insufficientFunds => "insufficient unlocked balance"
  | .sizeLimit => "transaction exceeds the size limit; split into smaller transfers"
  | .build e => e.text
  | .provenance => "buildPqSend: output provenance/opening mismatch"
  | .malformedOutput => "makePqPaymentProofTransaction: malformed non-PQ output"
  | .incompleteProof => "buildPqSend: incomplete recipient proof"
  | .proof e => e.text
  | .proofTotal => "buildPqSend: final payment proof total mismatch"

/-- The libraries, the activation heights and the sort a wallet runs with. -/
structure WalletEnv where
  W : WalletPrimitives
  currency : Currency
  order : LargestFirst

/-! ## Totals -/

/-- mirrors PqSender.cpp:170-178 -/
def addRecipient (sent : UInt64) (r : PqSendOutput) : Except SendError UInt64 :=
  if r.amount = 0 then .error .zeroAmount
  else if sent + r.amount < sent then .error .recipientOverflow
  else .ok (sent + r.amount)

def requestFee (req : PqSendRequest) : UInt64 :=
  if req.explicitFee ≠ 0 then req.explicitFee else UInt64.ofNat (pqTxFeeFloor minimumFee req.extra.length)

/-- The amount sent and the fee.
mirrors PqSender.cpp:161-195 -/
def sendTotals (req : PqSendRequest) : Except SendError (UInt64 × UInt64) :=
  if req.recipients = [] then .error .noRecipients
  else if req.unlockHeight ≠ 0 then .error .unsupportedUnlockHeight
  else
    match foldSteps addRecipient 0 req.recipients with
    | .error e => .error e
    | .ok sent =>
      if req.recipients.length + 1 > maxPqOutputsPerTx then .error .tooManyRecipients
      else if sent > uint64Max - requestFee req then .error .feeOverflow
      else .ok (sent, requestFee req)

/-- `pqSigningContextForHeight(req.signingHeight, req.genesisId)` -/
def signingContext (E : WalletEnv) (req : PqSendRequest) : PqSigningContext :=
  { E.currency.pqSigningContextForHeight req.signingHeight.toNat with chainId := req.genesisId }

/-- mirrors PqValidation.cpp:346-348 -/
def pqTransferTypeForHeight (height deliveryV2Height : UInt32) : UInt8 :=
  if height ≥ deliveryV2Height then txPqV2 else txPq

/-- The candidates in the order they are offered to the selection. -/
def candidates (E : WalletEnv) (available : List PqSpendInput) (req : PqSendRequest) : List PqSpendInput :=
  E.order.sort (filterBuckets available req.sourceBuckets)

/-! ## Keys and outputs -/

/-- The key that authorizes an input of bucket `depositIndex`.
mirrors PqSender.cpp:285-301 -/
def authFor (W : WalletPrimitives) (keys : PqWalletKeys) (scheme : PqDepositScheme) (depositIndex : UInt32) :
    PqInputAuth :=
  if scheme = .singleKeyIndex ∨ depositIndex = pqPrimaryDeposit ∨ depositIndex = pqUnattributedDeposit then
    ⟨keys.spendPub, keys.spendSk⟩
  else
    let derived := deriveDepositSpendKeys W keys.seedMaster depositIndex
    ⟨derived.1, derived.2⟩

def authForSelection (W : WalletPrimitives) (keys : PqWalletKeys) (scheme : PqDepositScheme)
    (sel : List PqSpendInput) : List PqInputAuth :=
  sel.map fun si => authFor W keys scheme si.depositIndex

def changeTemplate (keys : PqWalletKeys) (req : PqSendRequest) : PqSendOutput :=
  req.changeDest.getD ⟨keys.viewPub, keys.spendPub, 0, 0, 0⟩

/-- The recipients' outputs and, when something is left over, the change.
mirrors PqSender.cpp:316-322 -/
def sendOutputs (keys : PqWalletKeys) (req : PqSendRequest) (change : UInt64) : List PqSendOutput :=
  if change > 0 then req.recipients ++ [{ changeTemplate keys req with amount := change }] else req.recipients

/-! ## Building -/

section
variable (E : WalletEnv) (keys : PqWalletKeys) (req : PqSendRequest)

/-- One build of the selected inputs. -/
def buildDraft (required : UInt64) {caps : InputCaps} (s : Selection req.scheme caps)
    (coins : Nat → OutputCoins) : Except BuildError PqTransactionBuildResult :=
  buildPqTransactionWithProof E.W s.inputs (sendOutputs keys req (s.sum - required))
    (authForSelection E.W keys req.scheme s.inputs) 0 req.extra (signingContext E req)
    (pqTransferTypeForHeight req.signingHeight req.deliveryV2Height) coins

/-- Build, dropping one of the `swept` inputs at a time while the transfer is over
the size limit. Every attempt draws its own randomness.
mirrors PqSender.cpp:314-341 -/
def draftLoop (required : UInt64) {caps : InputCaps} (coins : Nat → Nat → OutputCoins) :
    (swept attempt : Nat) → Selection req.scheme caps →
      Except SendError (PqTransactionBuildResult × Selection req.scheme caps)
  | swept, attempt, s =>
    match buildDraft E keys req required s (coins attempt) with
    | .error e => .error (.build e)
    | .ok draft =>
      if (toBinaryArray draft.tx).length ≤ maxPqTxSize then .ok (draft, s)
      else
        match swept with
        | 0 => .error .sizeLimit
        | swept + 1 => draftLoop required coins swept (attempt + 1) s.drop

/-- mirrors PqSender.cpp:351-370 -/
def paymentProof (draft : PqTransactionBuildResult) (proofTx : PqPaymentProofTransaction)
    (x : PqSendOutput × Nat) : Except SendError PqPaymentProof :=
  match draft.tx.outputs[x.2]?, draft.outputRhos[x.2]? with
  | some out, some rho =>
    if out.amount ≠ x.1.amount then .error .incompleteProof
    else
      let recipient : ResolvedRecipient := ⟨x.1.recipientViewPub, x.1.recipientSpendPub, x.1.subaddrIndexT⟩
      match makePqPaymentProof E.W req.genesisId proofTx.txid recipient [⟨UInt32.ofNat x.2, rho⟩] with
      | .error e => .error (.proof e)
      | .ok proof =>
        match verifyPqPaymentProof E.W proof req.genesisId proofTx recipient with
        | .error e => .error (.proof e)
        | .ok verified => if verified ≠ x.1.amount then .error .proofTotal else .ok proof
  | _, _ => .error .provenance

/-- The proofs of all recipients, after the draft's openings have been counted. -/
def paymentProofs (draft : PqTransactionBuildResult) : Except SendError (List PqPaymentProof) :=
  if draft.outputRhos.length ≠ draft.tx.outputs.length ∨ draft.tx.outputs.length < req.recipients.length then
    .error .provenance
  else
    match makePqPaymentProofTransaction E.W draft.tx with
    | none => .error .malformedOutput
    | some proofTx => req.recipients.zipIdx.mapM (paymentProof E req draft proofTx)

/-- mirrors PqSender.cpp:158-380 -/
def buildPqSend (coins : Nat → Nat → OutputCoins) (available : List PqSpendInput) :
    Except SendError PqSendResult :=
  match sendTotals req with
  | .error e => .error e
  | .ok (sent, fee) =>
    let required := sent + fee
    let signing := signingContext E req
    let sorted := candidates E available req
    let funds := totalAvail 0 sorted
    let covered := cover req.scheme (capsFor signing) required sorted
    if covered.1.sum < required then
      if required ≤ funds then .error (.needsMoreInputs (capsFor signing).total) else .error .insufficientFunds
    else
      let selected := if req.sweepSmallInputs then sweep signing funds covered.1 covered.2 else covered.1
      match draftLoop E keys req required coins (selected.inputs.length - covered.1.inputs.length) 0 selected with
      | .error e => .error e
      | .ok (draft, final) =>
        match paymentProofs E req draft with
        | .error e => .error e
        | .ok proofs => .ok ⟨draft.tx, fee, sent, final.sum - required, final.inputs, proofs⟩

end

/-- The inputs a payment starts from: those that cover it and, unless the caller turned
it off, the swept ones. -/
def selectionFor (E : WalletEnv) (req : PqSendRequest) (available : List PqSpendInput) (required : UInt64) :
    Selection req.scheme (capsFor (signingContext E req)) :=
  let sorted := candidates E available req
  let covered := cover req.scheme (capsFor (signingContext E req)) required sorted
  if req.sweepSmallInputs then sweep (signingContext E req) (totalAvail 0 sorted) covered.1 covered.2 else covered.1

/-! ## The errors about funds -/

theorem addRecipient_sum : ∀ {l : List PqSendOutput} {s t : UInt64}, foldSteps addRecipient s l = .ok t →
    t.toNat = s.toNat + (l.map fun r => r.amount.toNat).sum ∧ ∀ r ∈ l, r.amount ≠ 0
  | [], s, t, h => by
    simp only [foldSteps_nil, Except.ok.injEq] at h
    subst h
    simp
  | r :: l, s, t, h => by
    obtain ⟨s', h1, h2⟩ := foldSteps_cons_ok.mp h
    obtain ⟨ih, hne⟩ := addRecipient_sum h2
    unfold addRecipient at h1
    split at h1
    · simp at h1
    · rename_i hzero
      split at h1
      · simp at h1
      · rename_i hno
        simp only [Except.ok.injEq] at h1
        subst h1
        refine ⟨?_, ?_⟩
        · rw [ih, toNat_add_of_not_lt hno, map_cons, sum_cons]
          omega
        · intro r' hr'
          rcases mem_cons.mp hr' with rfl | hr'
          · exact hzero
          · exact hne r' hr'

/-- What the totals say about the request. -/
structure Totals (req : PqSendRequest) (sent fee : UInt64) : Prop where
  recipients_ne : req.recipients ≠ []
  count : req.recipients.length + 1 ≤ maxPqOutputsPerTx
  amounts : ∀ r ∈ req.recipients, r.amount ≠ 0
  sent_eq : sent.toNat = (req.recipients.map fun r => r.amount.toNat).sum
  fee_eq : fee = requestFee req
  required : (sent + fee).toNat = sent.toNat + fee.toNat

theorem Totals.of_ok {req : PqSendRequest} {sent fee : UInt64} (h : sendTotals req = .ok (sent, fee)) :
    Totals req sent fee := by
  unfold sendTotals at h
  split at h; · simp at h
  split at h; · simp at h
  split at h; · simp at h
  rename_i hne _ _ total htotal
  split at h; · simp at h
  split at h; · simp at h
  rename_i hcount hover
  simp only [Except.ok.injEq, Prod.mk.injEq] at h
  obtain ⟨rfl, rfl⟩ := h
  obtain ⟨hsum, hamounts⟩ := addRecipient_sum htotal
  exact ⟨hne, by omega, hamounts, by simpa using hsum, rfl, toNat_add_of_le (UInt64.not_lt.mp hover)⟩

/-- The two errors that speak about the wallet's funds. -/
def SendError.aboutFunds : SendError → Bool
  | .needsMoreInputs _ | .insufficientFunds => true
  | _ => false

section
variable {E : WalletEnv} {keys : PqWalletKeys} {req : PqSendRequest}

variable {e : SendError}

theorem draftLoop_error {required : UInt64} {caps : InputCaps} {coins : Nat → Nat → OutputCoins} :
    ∀ {swept attempt : Nat} {s : Selection req.scheme caps},
      draftLoop E keys req required coins swept attempt s = .error e → e.aboutFunds = false := by
  intro swept
  induction swept with
  | zero =>
    intro attempt s h
    unfold draftLoop at h
    split at h
    · simp only [Except.error.injEq] at h
      rw [← h]
      rfl
    · split at h
      · simp at h
      · simp only [Except.error.injEq] at h
        rw [← h]
        rfl
  | succ swept ih =>
    intro attempt s h
    unfold draftLoop at h
    split at h
    · simp only [Except.error.injEq] at h
      rw [← h]
      rfl
    · split at h
      · simp at h
      · exact ih h

theorem paymentProof_error {draft : PqTransactionBuildResult} {proofTx : PqPaymentProofTransaction}
    {x : PqSendOutput × Nat} (h : paymentProof E req draft proofTx x = .error e) : e.aboutFunds = false := by
  unfold paymentProof at h
  dsimp only at h
  repeat' split at h
  all_goals
    simp only [Except.error.injEq, reduceCtorEq] at h
    try rw [← h]
    try rfl

theorem paymentProofs_error {draft : PqTransactionBuildResult} (h : paymentProofs E req draft = .error e) :
    e.aboutFunds = false := by
  unfold paymentProofs at h
  split at h
  · simp only [Except.error.injEq] at h
    rw [← h]
    rfl
  · split at h
    · simp only [Except.error.injEq] at h
      rw [← h]
      rfl
    · obtain ⟨x, -, hx⟩ := mapM_error h
      exact paymentProof_error hx

variable {available : List PqSpendInput}

/-- What `buildPqSend` does with totals that are in order. -/
theorem buildPqSend_cases {coins : Nat → Nat → OutputCoins} {sent fee : UInt64}
    (htotals : sendTotals req = .ok (sent, fee))
    (h : buildPqSend E keys req coins available = .error e) (he : e.aboutFunds = true) :
    (cover req.scheme (capsFor (signingContext E req)) (sent + fee) (candidates E available req)).1.sum < sent + fee ∧
      e = if sent + fee ≤ totalAvail 0 (candidates E available req) then
        .needsMoreInputs (capsFor (signingContext E req)).total else .insufficientFunds := by
  unfold buildPqSend at h
  rw [htotals] at h
  dsimp only at h
  split at h
  · rename_i hlt
    refine ⟨hlt, ?_⟩
    split at h
    · rename_i hfunds
      rw [if_pos hfunds]
      exact (Except.error.inj h).symm
    · rename_i hfunds
      rw [if_neg hfunds]
      exact (Except.error.inj h).symm
  · split at h
    · rename_i hdraft
      rw [← Except.error.inj h, draftLoop_error hdraft] at he
      simp at he
    · split at h
      · rename_i hproofs
        rw [← Except.error.inj h, paymentProofs_error hproofs] at he
        simp at he
      · simp at h

theorem buildPqSend_short (keys : PqWalletKeys) (coins : Nat → Nat → OutputCoins)
    {sent fee : UInt64}
    (htotals : sendTotals req = .ok (sent, fee))
    (hlt : (cover req.scheme (capsFor (signingContext E req)) (sent + fee) (candidates E available req)).1.sum <
      sent + fee) :
    buildPqSend E keys req coins available = .error
      (if sent + fee ≤ totalAvail 0 (candidates E available req) then
        .needsMoreInputs (capsFor (signingContext E req)).total else .insufficientFunds) := by
  unfold buildPqSend
  rw [htotals]
  dsimp only
  rw [if_pos hlt]
  split <;> rfl

/-- The filtered inputs a payment may be made from, as a choice of them within the
caps that adds up to `need`. -/
def Payable (E : WalletEnv) (available : List PqSpendInput) (req : PqSendRequest) (need : Nat) : Prop :=
  ∃ s : List PqSpendInput, s.Sublist (filterBuckets available req.sourceBuckets) ∧
    Feasible (capsFor (signingContext E req)) (keyGroupOf req.scheme) s ∧ need ≤ weight amountOf s

/-- The order of the candidates does not matter for what can be paid. -/
theorem payable_iff {need : Nat} :
    Payable E available req need ↔ ∃ s : List PqSpendInput, s.Subperm (candidates E available req) ∧
      Feasible (capsFor (signingContext E req)) (keyGroupOf req.scheme) s ∧ need ≤ weight amountOf s := by
  have hperm := E.order.perm (filterBuckets available req.sourceBuckets)
  constructor
  · rintro ⟨s, hs, hf, hneed⟩
    exact ⟨s, hs.subperm.trans hperm.symm.subperm, hf, hneed⟩
  · rintro ⟨s, hs, hf, hneed⟩
    obtain ⟨t, hts, htl⟩ := hs.trans hperm.subperm
    exact ⟨t, htl, hf.subperm hts.subperm, by rwa [weight_perm amountOf hts]⟩

/-- The errors about funds are right: `InsufficientFunds` means that the filtered
total is too small, "would need more inputs" that no choice within the caps pays. -/
def SelectionComplete (E : WalletEnv) (keys : PqWalletKeys) (req : PqSendRequest) (coins : Nat → Nat → OutputCoins)
    (available : List PqSpendInput) (need : Nat) : Prop :=
  (∀ e, buildPqSend E keys req coins available = .error e → e.code = some .insufficientFunds →
      weight amountOf (filterBuckets available req.sourceBuckets) < need) ∧
    (∀ n, buildPqSend E keys req coins available = .error (.needsMoreInputs n) → ¬ Payable E available req need)

/-- The errors about funds are right exactly when the keys that come first in the
largest-first order suffice. -/
theorem selection_complete_iff (coins : Nat → Nat → OutputCoins) (available : List PqSpendInput)
    (hfits : weight amountOf available < 2 ^ 64) {sent fee : UInt64} (htotals : sendTotals req = .ok (sent, fee)) :
    SelectionComplete E keys req coins available (sent.toNat + fee.toNat) ↔
      LeadingSuffice amountOf (capsFor (signingContext E req)) (keyGroupOf req.scheme) (sent.toNat + fee.toNat)
        (candidates E available req) := by
  have hperm := E.order.perm (filterBuckets available req.sourceBuckets)
  have htotal : weight amountOf (candidates E available req) =
      weight amountOf (filterBuckets available req.sourceBuckets) := weight_perm amountOf hperm
  have hlt : weight amountOf (candidates E available req) < 2 ^ 64 := by
    rw [htotal]
    exact (weight_le_of_sublist amountOf (filterBuckets_sublist _ _)).trans_lt hfits
  have hneed := (Totals.of_ok htotals).required
  have hfunds : sent + fee ≤ totalAvail 0 (candidates E available req) ↔
      sent.toNat + fee.toNat ≤ weight amountOf (candidates E available req) := by
    rw [UInt64.le_iff_toNat_le, totalAvail_toNat, UInt64.toNat_zero, hneed]
    omega
  have hcomplete := cover_complete_iff req.scheme (capsFor (signingContext E req)) (sent + fee) hlt
    (E.order.sorted _)
  rw [hneed, ← payable_iff] at hcomplete
  rw [← hcomplete]
  constructor
  · intro h hshort hpay
    have hthrow := buildPqSend_short keys coins htotals hshort
    -- a payment within the caps is one from the filtered total
    have hle : sent.toNat + fee.toNat ≤ weight amountOf (candidates E available req) := by
      obtain ⟨s, hsub, -, hsum⟩ := hpay
      rw [htotal]
      exact hsum.trans (weight_le_of_sublist amountOf hsub)
    rw [if_pos (hfunds.mpr hle)] at hthrow
    exact h.2 _ hthrow hpay
  · intro h
    refine ⟨fun e he hcode => ?_, fun n he => ?_⟩
    · have habout : e = .insufficientFunds := by
        cases e <;> simp [SendError.code] at hcode ⊢
      obtain ⟨-, hcase⟩ := buildPqSend_cases htotals he (by rw [habout]; rfl)
      rw [habout] at hcase
      split at hcase
      · simp at hcase
      · rename_i hno
        rw [← htotal]
        exact not_le.mp (mt hfunds.mpr hno)
    · exact h (buildPqSend_cases htotals he rfl).1

end

/-! ### A small wallet

Primitives that can be evaluated, and one seed: what the fixed runs of the wallet
modules start from. -/

/-- The tag of the toy AEAD. -/
def toyTag (key : Hash) (aad msg : Bytes) : Bytes := (toyHash (key.val ++ aad ++ msg)).val.take aeadTagBytes

theorem toyTag_length (key : Hash) (aad msg : Bytes) : (toyTag key aad msg).length = aeadTagBytes := by
  rw [toyTag, length_take, (toyHash (key.val ++ aad ++ msg)).property]
  rfl

/-- Keys are their seeds, secrets and tags are hashes, every signature verifies. -/
def toyWallet : WalletPrimitives where
  toPrimitives := toyPrimitives.toPrimitives
  hkdf := fun ikm info => toyHash (ikm ++ info)
  hkdf64 := fun ikm info => ⟨(toyHash (ikm ++ info)).val ++ (toyHash (info ++ ikm)).val, by
    simp [(toyHash (ikm ++ info)).property, (toyHash (info ++ ikm)).property]⟩
  kemKeygen := fun seed => (toArray _ seed.val, toArray _ seed.val)
  kemEncaps := fun viewPub coins => (toArray _ coins.val, toyHash (coins.val ++ viewPub.val.take 64))
  kemDecaps := fun viewSk kemCt => toyHash (kemCt.val.take 32 ++ viewSk.val.take 64)
  dsaKeygen := fun seed => (toArray _ seed.val, toArray _ seed.val)
  dsaSign := fun _ _ => zeroBlob pqSignatureSize
  aeadEncrypt := fun key aad msg => msg ++ toyTag key aad msg
  aeadDecrypt := fun key aad ct =>
    let msg := ct.take (ct.length - aeadTagBytes)
    if ct = msg ++ toyTag key aad msg then some msg else none

theorem take_toArray {n k : Nat} {l : Bytes} (hl : l.length = k) (hk : k ≤ n) : (toArray n l).val.take k = l := by
  rw [toArray, take_take, Nat.min_eq_left hk, take_left' hl]

theorem toyWallet_correct : toyWallet.Correct where
  sign := fun _ _ => rfl
  kem := fun seed coins => by
    simp only [toyWallet]
    rw [take_toArray coins.property (by decide), take_toArray seed.property (by decide),
      take_toArray seed.property (by decide)]
  aead := fun key aad msg => by
    have hlen := toyTag_length key aad msg
    have hmsg : (msg ++ toyTag key aad msg).take ((msg ++ toyTag key aad msg).length - aeadTagBytes) = msg := by
      rw [length_append, hlen, Nat.add_sub_cancel, take_left]
    simp only [toyWallet, hmsg, if_true]
  aead_length := fun key aad msg => by
    simp [toyWallet, toyTag_length]

def toyWalletEnv : WalletEnv where
  W := toyWallet
  currency := { testnet := true, genesisBlockHash := nullHash }
  order := .stable

def toySeed : SeedMaster := ⟨List.replicate 32 7, length_replicate⟩
def toyKeys : PqWalletKeys := derivePqWalletKeys toyWallet toySeed

def toyCoins (attempt output : Nat) : OutputCoins :=
  ⟨toArray _ (le32 (UInt32.ofNat attempt) ++ le32 (UInt32.ofNat output)),
    toArray _ (le32 (UInt32.ofNat output) ++ le32 (UInt32.ofNat attempt))⟩

def toyRequest (scheme : PqDepositScheme) (signingHeight : UInt32) (amount : UInt64) : PqSendRequest where
  recipients := [⟨toyKeys.viewPub, toyKeys.spendPub, amount, 0, 0⟩]
  explicitFee := 1
  unlockHeight := 0
  extra := []
  genesisId := nullHash
  signingHeight := signingHeight
  deliveryV2Height := 0xFFFFFFFF
  scheme := scheme
  sourceBuckets := []
  changeDest := none
  sweepSmallInputs := true

/-- An owned output of `amount` under deposit key `depositIndex`. -/
def toyInput (i : Nat) (amount : UInt64) (depositIndex : UInt32) : PqSpendInput :=
  ⟨nullHash, UInt32.ofNat i, amount, toArray _ [], depositIndex⟩

/-- 32 deposits with one output of 2 each, and a 33rd with ten outputs of 1. -/
def manyDeposits : List PqSpendInput :=
  (List.range 32).map (fun i => toyInput i 2 (UInt32.ofNat i)) ++ (List.range 10).map fun i => toyInput (32 + i) 1 32

theorem cover_reaches_manyDeposits :
    (64 : UInt64) ≤ (cover .aggregatedMultikey ⟨100, 32⟩ 64 manyDeposits).1.sum :=
  (cover_reaches (by decide +kernel)).mpr (by decide +kernel)

/-- 70 can be paid from 31 of the single outputs and the ten of the 33rd deposit;
the pass takes the 32 larger ones and is left without a key. -/
theorem payable_refused :
    (∀ si ∈ manyDeposits, 0 < si.amount) ∧ weight amountOf manyDeposits < 2 ^ 64 ∧
      sendTotals (toyRequest .aggregatedMultikey 0xFFFFFFFF 69) = .ok (69, 1) ∧
      ¬ SelectionComplete toyWalletEnv toyKeys (toyRequest .aggregatedMultikey 0xFFFFFFFF 69) toyCoins manyDeposits
        (69 + 1) := by
  have htotals : sendTotals (toyRequest .aggregatedMultikey 0xFFFFFFFF 69) = .ok (69, 1) := by decide +kernel
  refine ⟨by decide +kernel, by decide +kernel, htotals, fun h => ?_⟩
  have hthrow : buildPqSend toyWalletEnv toyKeys (toyRequest .aggregatedMultikey 0xFFFFFFFF 69) toyCoins
      manyDeposits = .error (.needsMoreInputs 256) := by
    rw [buildPqSend_short toyKeys toyCoins htotals (by decide +kernel), if_pos (by decide +kernel)]
    rfl
  exact h.2 256 hthrow ⟨manyDeposits.drop 1, drop_sublist _ _, ⟨by decide +kernel, by decide +kernel⟩,
    by decide +kernel⟩

/-- Before grouped authorization the same funds are judged rightly. -/
theorem selection_complete_manyDeposits :
    sendTotals (toyRequest .aggregatedMultikey 0 69) = .ok (69, 1) ∧
      SelectionComplete toyWalletEnv toyKeys (toyRequest .aggregatedMultikey 0 69) toyCoins manyDeposits (69 + 1) := by
  have htotals : sendTotals (toyRequest .aggregatedMultikey 0 69) = .ok (69, 1) := by decide +kernel
  exact ⟨htotals, (selection_complete_iff toyCoins manyDeposits (by decide +kernel) htotals).mpr
    (leadingSuffice_ungrouped (by decide) _ _ (toyWalletEnv.order.sorted _))⟩

/-! ## What is sent is valid -/

section
variable {E : WalletEnv} {keys : PqWalletKeys} {req : PqSendRequest}

variable {coins : Nat → Nat → OutputCoins}

/-- The draft that is kept is within the size limit and spends the selection up to
some of its last inputs. -/
theorem draftLoop_ok {required : UInt64} {caps : InputCaps} :
    ∀ {swept attempt : Nat} {s final : Selection req.scheme caps} {draft : PqTransactionBuildResult},
      draftLoop E keys req required coins swept attempt s = .ok (draft, final) →
        final.inputs <+: s.inputs ∧ s.inputs.length - swept ≤ final.inputs.length ∧
          (toBinaryArray draft.tx).length ≤ maxPqTxSize ∧
          ∃ attempt', buildDraft E keys req required final (coins attempt') = .ok draft := by
  intro swept
  induction swept with
  | zero =>
    intro attempt s final draft h
    unfold draftLoop at h
    split at h
    · simp at h
    · rename_i d hd
      split at h
      · rename_i hsize
        simp only [Except.ok.injEq, Prod.mk.injEq] at h
        obtain ⟨rfl, rfl⟩ := h
        exact ⟨prefix_refl _, Nat.sub_le _ _, hsize, attempt, hd⟩
      · simp at h
  | succ swept ih =>
    intro attempt s final draft h
    unfold draftLoop at h
    split at h
    · simp at h
    · rename_i d hd
      split at h
      · rename_i hsize
        simp only [Except.ok.injEq, Prod.mk.injEq] at h
        obtain ⟨rfl, rfl⟩ := h
        exact ⟨prefix_refl _, Nat.sub_le _ _, hsize, attempt, hd⟩
      · obtain ⟨htaken, hlen, hsize, hbuild⟩ := ih h
        refine ⟨htaken.trans ( dropLast_prefix _), ?_, hsize, hbuild⟩
        simp only [Selection.drop, length_dropLast] at hlen
        omega

/-- The selection keeps the covering inputs in front. -/
theorem selectionFor_inputs (E : WalletEnv) (req : PqSendRequest) (available : List PqSpendInput) (required : UInt64) :
    ∃ extra : List PqSpendInput, Swept (if req.sweepSmallInputs then sweepLimit (signingContext E req) else 0)
        ((totalAvail 0 (candidates E available req)).toNat / 10)
        (cover req.scheme (capsFor (signingContext E req)) required (candidates E available req)).2.length
        (cover req.scheme (capsFor (signingContext E req)) required (candidates E available req)).1
        (cover req.scheme (capsFor (signingContext E req)) required (candidates E available req)).2.reverse extra ∧
      (selectionFor E req available required).inputs =
        (cover req.scheme (capsFor (signingContext E req)) required (candidates E available req)).1.inputs ++ extra := by
  unfold selectionFor
  dsimp only
  split
  · exact sweep_swept _ _ _ _
  · exact ⟨[], Swept.nothing _ _ _ _ _, by simp⟩

variable {available : List PqSpendInput}

/-- What a successful send has gone through. -/
theorem buildPqSend_spec {r : PqSendResult} (h : buildPqSend E keys req coins available = .ok r) :
    sendTotals req = .ok (r.sent, r.fee) ∧
      r.sent + r.fee ≤ (cover req.scheme (capsFor (signingContext E req)) (r.sent + r.fee)
        (candidates E available req)).1.sum ∧ ∃ draft final, draftLoop E keys req (r.sent + r.fee) coins
          ((selectionFor E req available (r.sent + r.fee)).inputs.length -
            (cover req.scheme (capsFor (signingContext E req)) (r.sent + r.fee)
              (candidates E available req)).1.inputs.length)
          0 (selectionFor E req available (r.sent + r.fee)) = .ok (draft, final) ∧
        r.tx = draft.tx ∧ r.selected = final.inputs ∧ r.change = final.sum - (r.sent + r.fee) := by
  unfold buildPqSend at h
  split at h
  · simp at h
  · rename_i sent fee htotals
    dsimp only at h
    split at h
    · split at h <;> simp at h
    · rename_i hcovered
      split at h
      · simp at h
      · rename_i draft final hdraft
        split at h
        · simp at h
        · simp only [Except.ok.injEq] at h
          subst h
          exact ⟨htotals, UInt64.not_lt.mp hcovered, draft, final, hdraft, rfl, rfl, rfl⟩

/-- Only swept inputs are shed: what goes out is the cover and a first part of the rest. -/
theorem draftLoop_cover {required : UInt64}
    {draft : PqTransactionBuildResult} {final : Selection req.scheme (capsFor (signingContext E req))}
    (h : draftLoop E keys req required coins ((selectionFor E req available required).inputs.length -
      (cover req.scheme (capsFor (signingContext E req)) required (candidates E available req)).1.inputs.length) 0
      (selectionFor E req available required) = .ok (draft, final)) :
    (cover req.scheme (capsFor (signingContext E req)) required (candidates E available req)).1.inputs <+: final.inputs ∧
      final.inputs <+: (selectionFor E req available required).inputs := by
  obtain ⟨htaken, hlen, -⟩ := draftLoop_ok h
  obtain ⟨extra, -, hselected⟩ := selectionFor_inputs E req available required
  rw [hselected] at htaken hlen ⊢
  exact ⟨prefix_of_prefix_length_le (prefix_append _ _) htaken (by simpa using hlen), htaken⟩

/-- Everything a successful send has established. -/
structure Sent (E : WalletEnv) (keys : PqWalletKeys) (req : PqSendRequest) (available : List PqSpendInput)
    (r : PqSendResult) (draft : PqTransactionBuildResult) (coins : Nat → OutputCoins) : Prop where
  totals : Totals req r.sent r.fee
  tx_eq : r.tx = draft.tx
  drawn : r.selected.Subperm available
  size : (toBinaryArray r.tx).length ≤ maxPqTxSize
  balance : weight amountOf r.selected = r.sent.toNat + r.fee.toNat + r.change.toNat
  built : buildPqTransactionWithProof E.W r.selected (sendOutputs keys req r.change)
    (authForSelection E.W keys req.scheme r.selected) 0 req.extra (signingContext E req)
    (pqTransferTypeForHeight req.signingHeight req.deliveryV2Height) coins = .ok draft

theorem Sent.of_ok {r : PqSendResult} (h : buildPqSend E keys req coins available = .ok r) :
    ∃ draft attempt, Sent E keys req available r draft (coins attempt) := by
  obtain ⟨htotals, hcovered, draft, final, hdraft, htx, hselected, hchange⟩ := buildPqSend_spec h
  have ht := Totals.of_ok htotals
  obtain ⟨-, -, hsize, attempt, hbuild⟩ := draftLoop_ok hdraft
  obtain ⟨hcover, htaken⟩ := draftLoop_cover hdraft
  obtain ⟨extra, hextra, heq⟩ := selectionFor_inputs E req available (r.sent + r.fee)
  have hle : r.sent + r.fee ≤ final.sum := by
    rw [UInt64.le_iff_toNat_le, final.sum_eq]
    refine le_trans ?_ (weight_le_of_sublist amountOf hcover.sublist)
    rw [← Selection.sum_eq, ← UInt64.le_iff_toNat_le]
    exact hcovered
  refine ⟨draft, attempt, ht, htx, ?_, htx ▸ hsize, ?_, ?_⟩
  · have hperm := cover_perm req.scheme (capsFor (signingContext E req)) (r.sent + r.fee) (candidates E available req)
    have hextra : extra.Subperm (cover req.scheme (capsFor (signingContext E req)) (r.sent + r.fee)
        (candidates E available req)).2 := hextra.drawn.subperm.trans (reverse_perm _).subperm
    have hall : final.inputs.Subperm (candidates E available req) :=
      ((heq ▸ htaken).sublist.subperm.trans ((List.Subperm.refl _).append hextra)).trans hperm.subperm
    rw [hselected]
    exact (hall.trans (E.order.perm _).subperm).trans (filterBuckets_sublist _ _).subperm
  · rw [hselected, hchange, ← final.sum_eq, UInt64.toNat_sub_of_le _ _ hle, ht.required]
    rw [UInt64.le_iff_toNat_le, ht.required] at hle
    omega
  · rw [hselected, hchange]
    exact hbuild

theorem isPqTransfer_forHeight (height deliveryV2Height : UInt32) :
    isPqTransfer (pqTransferTypeForHeight height deliveryV2Height) = true := by
  unfold pqTransferTypeForHeight
  split <;> decide

/-- Every key a wallet signs with is a pair. -/
theorem authFor_paired {W : WalletPrimitives} (hW : W.Correct) (seed : SeedMaster) (scheme : PqDepositScheme)
    (depositIndex : UInt32) : (authFor W (derivePqWalletKeys W seed) scheme depositIndex).Paired W := by
  intro msg
  unfold authFor
  split
  · exact hW.sign _ msg
  · exact hW.sign _ msg

theorem sendOutputs_amounts (keys : PqWalletKeys) (req : PqSendRequest) (change : UInt64) :
    (sendOutputs keys req change).map (fun so => so.amount) =
      req.recipients.map (fun so => so.amount) ++ if change = 0 then [] else [change] := by
  unfold sendOutputs
  by_cases hzero : change = 0
  · simp [hzero]
  · have hpos : change > 0 := UInt64.pos_iff_ne_zero.mpr hzero
    simp [hzero, hpos]

theorem sendOutputs_ne_zero {sent fee change : UInt64} (ht : Totals req sent fee) :
    ∀ so ∈ sendOutputs keys req change, so.amount ≠ 0 := by
  intro so hso
  have hmem : so.amount ∈ (sendOutputs keys req change).map fun so => so.amount := mem_map_of_mem hso
  rw [sendOutputs_amounts, mem_append] at hmem
  rcases hmem with hmem | hmem
  · obtain ⟨r, hr, he⟩ := mem_map.mp hmem
    exact he ▸ ht.amounts r hr
  · split at hmem
    · simp at hmem
    · rename_i hne
      rw [mem_singleton] at hmem
      exact hmem ▸ hne

/-- The available inputs, each with the key the wallet signs it with. -/
def keyed (E : WalletEnv) (keys : PqWalletKeys) (req : PqSendRequest) (l : List PqSpendInput) :
    List (PqSpendInput × PqInputAuth) :=
  l.map fun si => (si, authFor E.W keys req.scheme si.depositIndex)

theorem zip_authForSelection (l : List PqSpendInput) :
    l.zip (authForSelection E.W keys req.scheme l) = keyed E keys req l := by
  induction l with
  | nil => rfl
  | cons si l ih => simpa [authForSelection, keyed] using ih

/-- `buildPqSend` only returns transfers that consensus accepts at the height they
are signed for: with inputs that are the wallet's own and pairwise distinct, an
extra within the limit and a fee that is not below the floor, the transfer passes
both checks, pays the recipients in order and at most one change output, and its
inputs are the sum of what is sent, the fee and the change. -/
theorem sent_transfer_valid (hW : E.W.Correct) (seed : SeedMaster) (coins : Nat → Nat → OutputCoins)
    (available : List PqSpendInput) (resolve : Hash → UInt32 → PqResolvedInput)
    (hdistinct : (available.map fun si => (si.prevTxid, si.prevOutIndex)).Nodup)
    (howned : ∀ x ∈ keyed E (derivePqWalletKeys E.W seed) req available, resolve x.1.prevTxid x.1.prevOutIndex =
      ⟨spendCommit E.W.toPrimitives x.2.spendPub x.1.rho, x.1.amount, true, true⟩)
    (hfree : Set.InjOn E.W.sha3_256 (nullifierPreimages (keyed E (derivePqWalletKeys E.W seed) req available)))
    (hextra : req.extra.length ≤ maxExtraSizePq)
    (hfee : pqTxFeeFloor minimumFee req.extra.length ≤ (requestFee req).toNat) {r : PqSendResult}
    (h : buildPqSend E (derivePqWalletKeys E.W seed) req coins available = .ok r) :
    checkPqTransactionSemantic r.tx = .ok () ∧ (∃ nullifiers, checkPqTransactionInputs E.W.toPrimitives r.tx
        (r.tx.pqInputs.map fun i => resolve i.prevTxid i.prevOutIndex) minimumFee (signingContext E req) =
          .ok nullifiers) ∧ r.tx.outputs.map (fun out => out.amount) =
        req.recipients.map (fun so => so.amount) ++ (if r.change = 0 then [] else [r.change]) ∧
      r.tx.pqInputs.map (fun i => (i.prevTxid, i.prevOutIndex)) =
        r.selected.map (fun si => (si.prevTxid, si.prevOutIndex)) ∧
      r.sent.toNat = (req.recipients.map fun so => so.amount.toNat).sum ∧
      weight amountOf r.selected = r.sent.toNat + r.fee.toNat + r.change.toNat := by
  obtain ⟨draft, attempt, hsent⟩ := Sent.of_ok h
  obtain ⟨fee, u, hb⟩ := Built.of_ok hsent.built
  have hkeyed : keyed E (derivePqWalletKeys E.W seed) req r.selected ⊆
      keyed E (derivePqWalletKeys E.W seed) req available := map_subset _ hsent.drawn.subset
  have hpaired : ∀ a ∈ authForSelection E.W (derivePqWalletKeys E.W seed) req.scheme r.selected, a.Paired E.W := by
    intro a ha
    obtain ⟨si, -, rfl⟩ := mem_map.mp ha
    exact authFor_paired hW seed req.scheme si.depositIndex
  have hresolve : ∀ x ∈ r.selected.zip (authForSelection E.W (derivePqWalletKeys E.W seed) req.scheme r.selected),
      resolve x.1.prevTxid x.1.prevOutIndex =
        ⟨spendCommit E.W.toPrimitives x.2.spendPub x.1.rho, x.1.amount, true, true⟩ := by
    intro x hx
    rw [zip_authForSelection] at hx
    exact howned x (hkeyed hx)
  have hnodup : (r.selected.map fun si => (si.prevTxid, si.prevOutIndex)).Nodup := by
    obtain ⟨t, hperm, hsub⟩ := hsent.drawn
    exact (hperm.map _).nodup_iff.mp (hdistinct.sublist (hsub.map _))
  have hfree' : Set.InjOn E.W.sha3_256 (nullifierPreimages
      (r.selected.zip (authForSelection E.W (derivePqWalletKeys E.W seed) req.scheme r.selected))) := by
    rw [zip_authForSelection]
    refine hfree.mono ?_
    rintro b ⟨x, hx, rfl⟩
    exact ⟨x, hkeyed hx, rfl⟩
  have hamounts := hb.amounts
  rw [sendOutputs_amounts] at hamounts
  -- the fee the signatures commit to is the one of the request
  have hfeeEq : fee.toNat = r.fee.toNat := by
    have hbal := hb.balance
    have hsum := congrArg (fun l => (l.map UInt64.toNat).sum)
      (sendOutputs_amounts (derivePqWalletKeys E.W seed) req r.change)
    have hchange : ((if r.change = 0 then [] else [r.change]).map UInt64.toNat).sum = r.change.toNat := by
      split
      · rename_i hzero
        simp [hzero]
      · simp
    simp only [map_map, Function.comp_def, map_append, sum_append] at hsum
    rw [hchange, ← hsent.totals.sent_eq] at hsum
    have := hsent.balance
    omega
  have hfloor : pqTxFeeFloor minimumFee req.extra.length ≤ fee.toNat := by
    rw [hfeeEq, hsent.totals.fee_eq]
    exact hfee
  have hin := hb.inputsOk hpaired hresolve hnodup hfree' hfloor
  have hlt : ((draft.tx.pqInputs.map fun i => resolve i.prevTxid i.prevOutIndex).map fun r => r.amount.toNat).sum <
      2 ^ 64 := by
    rw [hb.resolved_amounts hresolve]
    exact hb.sum_lt
  rw [hsent.tx_eq]
  refine ⟨(hb.semantic hW (isPqTransfer_forHeight _ _) hextra (sendOutputs_ne_zero hsent.totals)
    (hsent.tx_eq ▸ hsent.size)).accepted, ⟨_, hin.accepted hlt⟩, hamounts, hb.outpoints, hsent.totals.sent_eq,
    hsent.balance⟩

theorem sent_transfer_valid_toy :
    ∃ r, buildPqSend toyWalletEnv toyKeys (toyRequest .singleKeyIndex 0 69) toyCoins
        [toyInput 0 100 pqPrimaryDeposit] = .ok r ∧ r.change = 30 ∧ checkPqTransactionSemantic r.tx = .ok () := by
  obtain ⟨r, hr, hchange⟩ := okAnd_eq_true (show okAnd (fun r => r.change = 30)
    (buildPqSend toyWalletEnv toyKeys (toyRequest .singleKeyIndex 0 69) toyCoins
      [toyInput 0 100 pqPrimaryDeposit]) = true by decide +kernel)
  refine ⟨r, hr, hchange, (sent_transfer_valid toyWallet_correct toySeed toyCoins [toyInput 0 100 pqPrimaryDeposit]
    (fun _ _ => ⟨spendCommit toyWallet.toPrimitives toyKeys.spendPub (toArray _ []), 100, true, true⟩)
    (by decide) ?_ ?_ (by decide) (by decide) hr).1⟩
  · intro x hx
    rw [keyed, map_singleton, mem_singleton] at hx
    subst hx
    rfl
  · rintro a ⟨x, hx, rfl⟩ b ⟨y, hy, rfl⟩ _
    rw [keyed, map_singleton, mem_singleton] at hx hy
    rw [hx, hy]

end

end Discrete.L6
