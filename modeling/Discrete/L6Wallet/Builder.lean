import Discrete.L2Validation.Accept
import Discrete.L2Validation.GroupedAuth
import Discrete.L3Ledger.InputCheck
import Discrete.L6Wallet.Selection

/-!
# Building and signing a transfer (`PqTransactionBuilder.cpp`)

`buildPqTransactionWithProof` assembles a transfer from the inputs to spend, the
outputs to create and one signing key per input. Under grouped authorization a key
is carried by the first input spent under it and every later input refers back to
that one; only the inputs that carry a key are signed.

`Built` is everything a successful build has established: what consensus checks
about the transaction is derived from it.
-/
namespace Discrete.L6
open List L1 L2 Codec Greedy

structure PqInputAuth where
  spendPub : DsaPublicKey
  spendSk : DsaSecretKey
  deriving DecidableEq

structure PqSendOutput where
  recipientViewPub : KemPublicKey
  recipientSpendPub : DsaPublicKey
  amount : UInt64
  subaddrIndexT : UInt64
  unlockHeight : UInt64
  deriving DecidableEq

/-- The `std::runtime_error`s of the builder. -/
inductive BuildError where
  | noInputs | noOutputs | unlockHeight | authCount | groupedNeedsV2 | tooManyInputs | tooManyOutputs
  | inputOverflow | tooManyKeys | selfCheck | outputOverflow | outputsExceedInputs | badGet
  deriving DecidableEq, Repr

def BuildError.text : BuildError → String
  | .noInputs => "buildPqTransaction: no inputs"
  | .noOutputs => "buildPqTransaction: no outputs"
  | .unlockHeight => "buildPqTransaction: tx-level unlockHeight is not supported for TX_PQ"
  | .authCount => "buildPqTransaction: input auth count mismatch"
  | .groupedNeedsV2 => "buildPqTransaction: grouped authorization requires transcript v2"
  | .tooManyInputs => "buildPqTransaction: too many inputs"
  | .tooManyOutputs => "buildPqTransaction: too many outputs"
  | .inputOverflow => "buildPqTransaction: input amount overflow"
  | .tooManyKeys => "buildPqTransaction: too many distinct spend keys"
  | .selfCheck => "buildPqOutput: sender self-check failed"
  | .outputOverflow => "buildPqTransaction: output amount overflow"
  | .outputsExceedInputs => "buildPqTransaction: outputs exceed inputs"
  | .badGet => "boost::bad_get: failed value get using boost::get"

structure PqTransactionBuildResult where
  tx : Transaction
  outputRhos : List Rho

/-- The first earlier input under the same key, when keys may be referred to.
mirrors PqTransactionBuilder.cpp:139-146 -/
def keyRefOf (groupedAuth : Bool) (earlier : List DsaPublicKey) (spendPub : DsaPublicKey) : UInt32 :=
  if groupedAuth then
    match earlier.findIdx? fun p => decide (p = spendPub) with
    | some j => UInt32.ofNat j
    | none => pqNoKeyRef
  else pqNoKeyRef

/-- mirrors PqTransactionBuilder.cpp:103-104 -/
def maxInputs (signing : PqSigningContext) : Nat :=
  if signing.groupedAuth then maxPqGroupedInputsPerTx else maxPqInputsPerTx

/-- What the input loop has so far: the inputs, the keys they are spent under, how
many of them carry their key, and the sum. -/
structure InputBuild where
  inputs : List PqInput
  earlier : List DsaPublicKey
  keyInputs : Nat
  sumIn : UInt64

/-- The wire input that spends `x`, after inputs under the keys `earlier`.
mirrors PqTransactionBuilder.cpp:133-146 -/
def spendInput (groupedAuth : Bool) (earlier : List DsaPublicKey) (x : PqSpendInput × PqInputAuth) : PqInput where
  prevTxid := x.1.prevTxid
  prevOutIndex := x.1.prevOutIndex
  authPub := x.2.spendPub.val
  rhoReveal := x.1.rho.val
  keyRef := keyRefOf groupedAuth earlier x.2.spendPub

theorem spendInput_fieldsValid (g : Bool) (earlier : List DsaPublicKey) (x : PqSpendInput × PqInputAuth) :
    pqInputFieldsValid (spendInput g earlier x) = true := by
  rw [pqInputFieldsValid, Bool.and_eq_true, decide_eq_true_eq, decide_eq_true_eq]
  exact ⟨x.2.spendPub.property, x.1.rho.property⟩

/-- One turn of the input loop.
mirrors PqTransactionBuilder.cpp:131-156 -/
def buildInput (groupedAuth : Bool) (s : InputBuild) (x : PqSpendInput × PqInputAuth) :
    Except BuildError InputBuild :=
  let inp := spendInput groupedAuth s.earlier x
  if s.sumIn + x.1.amount < s.sumIn then .error .inputOverflow
  else .ok
    { inputs := s.inputs ++ [inp]
      earlier := s.earlier ++ [x.2.spendPub]
      keyInputs := if inp.keyRef = pqNoKeyRef then s.keyInputs + 1 else s.keyInputs
      sumIn := s.sumIn + x.1.amount }

structure OutputBuild where
  outputs : List TransactionOutput
  outputRhos : List Rho
  sumOut : UInt64

section
variable (W : WalletPrimitives)

/-- One turn of the output loop.
mirrors PqTransactionBuilder.cpp:170-193 -/
def buildOutput (inputsHash : Hash) (coins : Nat → OutputCoins) (s : OutputBuild) (so : PqSendOutput) :
    Except BuildError OutputBuild :=
  let i := s.outputs.length
  match buildPqOutput W so.recipientViewPub so.recipientSpendPub inputsHash (UInt32.ofNat i) so.amount
      so.subaddrIndexT (coins i) with
  | none => .error .selfCheck
  | some built =>
    if s.sumOut + so.amount < s.sumOut then .error .outputOverflow
    else .ok
      { outputs := s.outputs ++ [⟨so.amount, so.unlockHeight,
          .pq ⟨built.kemCt.val, built.encPayload, built.spendCommit⟩⟩]
        outputRhos := s.outputRhos ++ [built.rho]
        sumOut := s.sumOut + so.amount }

/-- The signatures of the key-carrying inputs, in order.
mirrors PqTransactionBuilder.cpp:225-229 -/
def signInputs (inputAuth : List PqInputAuth) (signed : List (Nat × Hash)) : List (Blob pqSignatureSize) :=
  signed.filterMap fun x => (inputAuth[x.1]?).map fun auth => W.dsaSign auth.spendSk x.2.val

/-- mirrors PqTransactionBuilder.cpp:81-232 -/
def buildPqTransactionWithProof (inputs : List PqSpendInput) (outputs : List PqSendOutput)
    (inputAuth : List PqInputAuth) (unlockHeight : UInt64) (extra : Bytes) (signing : PqSigningContext)
    (txType : UInt8) (coins : Nat → OutputCoins) : Except BuildError PqTransactionBuildResult :=
  if inputs = [] then .error .noInputs
  else if outputs = [] then .error .noOutputs
  else if unlockHeight ≠ 0 then .error .unlockHeight
  else if inputAuth.length ≠ inputs.length then .error .authCount
  else if signing.groupedAuth ∧ ¬ signing.useV2 then .error .groupedNeedsV2
  else if inputs.length > maxInputs signing then .error .tooManyInputs
  else if outputs.length > maxPqOutputsPerTx then .error .tooManyOutputs
  else
    match foldSteps (buildInput signing.groupedAuth) ⟨[], [], 0, 0⟩ (inputs.zip inputAuth) with
    | .error e => .error e
    | .ok ins =>
      if ins.keyInputs > maxPqInputsPerTx then .error .tooManyKeys
      else
        let unsignedTx : Transaction :=
          { version := transactionVersion1, txType := txType, unlockHeight := unlockHeight
            inputs := ins.inputs.map .pq, outputs := [], extra := extra, pqSignatures := [] }
        let ih := pqTransactionInputsHash W unsignedTx.toTransactionPrefix
        match foldSteps (buildOutput W ih coins) ⟨[], [], 0⟩ outputs with
        | .error e => .error e
        | .ok outs =>
          if ins.sumIn < outs.sumOut then .error .outputsExceedInputs
          else
            let body := { unsignedTx with outputs := outs.outputs }
            match pqUnsignedTx body (ins.sumIn - outs.sumOut) with
            | none => .error .badGet
            | some u =>
              let keyed := signers body.inputs
              .ok
                { tx := { body with
                    pqSignatures := signInputs W inputAuth (keyed.zip (signingDigests W.toPrimitives signing u keyed)) }
                  outputRhos := outs.outputRhos }

/-! ## The inputs -/

/-- The inputs of the transaction, each with the reference to the first earlier
input under its key. -/
def spendInputs (groupedAuth : Bool) : List DsaPublicKey → List (PqSpendInput × PqInputAuth) → List PqInput
  | _, [] => []
  | earlier, x :: l => spendInput groupedAuth earlier x :: spendInputs groupedAuth (earlier ++ [x.2.spendPub]) l

theorem spendInputs_length (g : Bool) : ∀ (earlier : List DsaPublicKey) (l : List (PqSpendInput × PqInputAuth)),
    (spendInputs g earlier l).length = l.length
  | _, [] => rfl
  | earlier, x :: l => by simp [spendInputs, spendInputs_length g _ l]

theorem spendInputs_getElem? (g : Bool) : ∀ (earlier : List DsaPublicKey)
    (l : List (PqSpendInput × PqInputAuth)) (i : Nat), (spendInputs g earlier l)[i]? =
      (l[i]?).map (spendInput g (earlier ++ (l.take i).map fun y => y.2.spendPub))
  | _, [], _ => rfl
  | earlier, x :: l, 0 => by simp [spendInputs]
  | earlier, x :: l, i + 1 => by simp [spendInputs, spendInputs_getElem? g _ l i]

/-- A reading of the inputs that ignores the references. -/
theorem spendInputs_map {β : Type} {f : PqInput → β} (read : PqSpendInput × PqInputAuth → β) (g : Bool)
    (hf : ∀ earlier x, f (spendInput g earlier x) = read x) :
    ∀ (earlier : List DsaPublicKey) (l : List (PqSpendInput × PqInputAuth)),
      (spendInputs g earlier l).map f = l.map read
  | _, [] => rfl
  | earlier, x :: l => by
    rw [spendInputs, map_cons, map_cons, hf, spendInputs_map read g hf _ l]

/-- What the input loop computes. -/
theorem buildInputs_spec {g : Bool} : ∀ {l : List (PqSpendInput × PqInputAuth)} {s t : InputBuild},
    foldSteps (buildInput g) s l = .ok t → t.inputs = s.inputs ++ spendInputs g s.earlier l ∧
      t.keyInputs = s.keyInputs + (spendInputs g s.earlier l).countP PqInput.carriesKey ∧
      t.sumIn.toNat = s.sumIn.toNat + weight amountOf (l.map Prod.fst)
  | [], s, t, h => by
    simp only [foldSteps_nil, Except.ok.injEq] at h
    subst h
    simp [spendInputs]
  | x :: l, s, t, h => by
    obtain ⟨s', h1, h2⟩ := foldSteps_cons_ok.mp h
    obtain ⟨ih1, ih2, ih3⟩ := buildInputs_spec h2
    unfold buildInput at h1
    dsimp only at h1
    split at h1
    · simp at h1
    · rename_i hno
      simp only [Except.ok.injEq] at h1
      subst h1
      refine ⟨?_, ?_, ?_⟩
      · rw [ih1]
        simp [spendInputs]
      · rw [ih2, spendInputs, countP_cons]
        by_cases href : (spendInput g s.earlier x).keyRef = pqNoKeyRef
        · simp [href, PqInput.carriesKey]
          omega
        · simp [href, PqInput.carriesKey]
      · rw [ih3, toNat_add_of_not_lt hno, map_cons, weight_cons, amountOf]
        omega

/-- A reference names an earlier input that carries the key. -/
theorem spendInputs_refOk (g : Bool) {l : List (PqSpendInput × PqInputAuth)} (hlen : l.length ≤ 256) {i : Nat}
    {inp : PqInput} (hi : (spendInputs g [] l)[i]? = some inp) :
    RefOk ((spendInputs g [] l).map .pq) i inp ∧ (inp.keyRef = pqNoKeyRef ∨ g = true) := by
  rw [spendInputs_getElem?, nil_append] at hi
  obtain ⟨x, hx, rfl⟩ := Option.map_eq_some_iff.mp hi
  have hlt : i < l.length := (List.getElem?_eq_some_iff.mp hx).1
  unfold RefOk
  simp only [spendInput]
  cases g with
  | false => simp [keyRefOf]
  | true =>
    refine ⟨?_, Or.inr rfl⟩
    cases hfind : ((l.take i).map fun y => y.2.spendPub).findIdx? fun p => decide (p = x.2.spendPub) with
    | none => exact Or.inl (by rw [keyRefOf, if_pos rfl, hfind])
    | some j =>
      -- `j` is the first input under this key: it has no reference of its own
      obtain ⟨hj, hkey, hfirst⟩ := findIdx?_eq_some_iff_getElem.mp hfind
      simp only [length_map, length_take] at hj
      have hjl : j < l.length := by omega
      have hkey : l[j].2.spendPub = x.2.spendPub := by simpa using hkey
      have hnat : (UInt32.ofNat j).toNat = j := by
        rw [UInt32.toNat_ofNat']
        omega
      have href : keyRefOf true ((l.take i).map fun y => y.2.spendPub) x.2.spendPub = UInt32.ofNat j := by
        rw [keyRefOf, if_pos rfl, hfind]
      rw [href, hnat]
      refine Or.inr ⟨by omega, spendInput true ((l.take j).map fun y => y.2.spendPub) l[j], ?_, ?_, ?_⟩
      · rw [getElem?_map, spendInputs_getElem?, getElem?_eq_getElem hjl]
        simp
      · have hnone : ((l.take j).map fun y => y.2.spendPub).findIdx? (fun p => decide (p = l[j].2.spendPub)) =
            none := by
          rw [findIdx?_eq_none_iff]
          intro p hp
          obtain ⟨y, hy, rfl⟩ := List.mem_map.mp hp
          obtain ⟨k, hk, rfl⟩ := mem_take_iff_getElem.mp hy
          have := hfirst k (by omega)
          simpa [hkey] using this
        rw [spendInput, keyRefOf, if_pos rfl, hnone]
      · rw [spendInput, hkey]

/-! ## The outputs -/

/-- The output in position `i` is the one built for `so`. -/
structure SentOutput (W : WalletPrimitives) (ih : Hash) (coins : Nat → OutputCoins) (i : Nat) (so : PqSendOutput)
    (out : TransactionOutput) (rho : Rho) : Prop where
  intro ::
  built : ∃ b, buildPqOutput W so.recipientViewPub so.recipientSpendPub ih (UInt32.ofNat i) so.amount
      so.subaddrIndexT (coins i) = some b ∧
    out = ⟨so.amount, so.unlockHeight, .pq ⟨b.kemCt.val, b.encPayload, b.spendCommit⟩⟩ ∧ rho = b.rho

variable {W}

/-- What the output loop computes. -/
theorem buildOutputs_spec {ih : Hash} {coins : Nat → OutputCoins} : ∀ {l : List PqSendOutput} {s t : OutputBuild},
    s.outputRhos.length = s.outputs.length → foldSteps (buildOutput W ih coins) s l = .ok t →
      (∃ outs rhos, t.outputs = s.outputs ++ outs ∧ t.outputRhos = s.outputRhos ++ rhos ∧
        outs.length = l.length ∧ rhos.length = l.length ∧
        ∀ k so, l[k]? = some so → ∃ out rho, outs[k]? = some out ∧ rhos[k]? = some rho ∧
          SentOutput W ih coins (s.outputs.length + k) so out rho) ∧
      t.sumOut.toNat = s.sumOut.toNat + (l.map fun so => so.amount.toNat).sum
  | [], s, t, _, h => by
    simp only [foldSteps_nil, Except.ok.injEq] at h
    subst h
    exact ⟨⟨[], [], by simp, by simp, rfl, rfl, by simp⟩, by simp⟩
  | so :: l, s, t, hlen, h => by
    obtain ⟨s', h1, h2⟩ := foldSteps_cons_ok.mp h
    unfold buildOutput at h1
    dsimp only at h1
    split at h1
    · simp at h1
    · rename_i b hb
      split at h1
      · simp at h1
      · rename_i hno
        simp only [Except.ok.injEq] at h1
        subst h1
        obtain ⟨⟨outs, rhos, ho, hr, holen, hrlen, hall⟩, hsum⟩ := buildOutputs_spec (by simp [hlen]) h2
        refine ⟨⟨⟨so.amount, so.unlockHeight, .pq ⟨b.kemCt.val, b.encPayload, b.spendCommit⟩⟩ :: outs, b.rho :: rhos,
          by simp [ho], by simp [hr], by simp [holen], by simp [hrlen], ?_⟩, ?_⟩
        · intro k so' hk
          cases k with
          | zero =>
            simp only [getElem?_cons_zero, Option.some.injEq] at hk
            subst hk
            exact ⟨_, _, rfl, rfl, ⟨b, hb, rfl, rfl⟩⟩
          | succ k =>
            obtain ⟨out, rho, h1, h2, h3⟩ := hall k so' (by simpa using hk)
            refine ⟨out, rho, by simpa using h1, by simpa using h2, ?_⟩
            have hidx : (s.outputs ++ [(⟨so.amount, so.unlockHeight,
                .pq ⟨b.kemCt.val, b.encPayload, b.spendCommit⟩⟩ : TransactionOutput)]).length + k =
                s.outputs.length + (k + 1) := by
              simp only [length_append, length_singleton]
              omega
            exact hidx ▸ h3
        · rw [hsum, toNat_add_of_not_lt hno, map_cons, sum_cons]
          omega

/-! ## The transaction -/

/-- Everything a successful build has established. -/
structure Built (W : WalletPrimitives) (inputs : List PqSpendInput) (outputs : List PqSendOutput)
    (inputAuth : List PqInputAuth) (extra : Bytes) (signing : PqSigningContext) (txType : UInt8)
    (coins : Nat → OutputCoins) (r : PqTransactionBuildResult) (fee : UInt64) (u : UnsignedTx) : Prop where
  inputs_ne : inputs ≠ []
  outputs_ne : outputs ≠ []
  auth_length : inputAuth.length = inputs.length
  grouped : signing.groupedAuth = true → signing.useV2 = true
  inputs_le : inputs.length ≤ maxPqGroupedInputsPerTx
  outputs_le : outputs.length ≤ maxPqOutputsPerTx
  tx_version : r.tx.version = transactionVersion1
  tx_type : r.tx.txType = txType
  tx_unlock : r.tx.unlockHeight = 0
  tx_extra : r.tx.extra = extra
  tx_inputs : r.tx.inputs = (spendInputs signing.groupedAuth [] (inputs.zip inputAuth)).map .pq
  keys_le : pqSignatureCount r.tx.inputs ≤ maxPqInputsPerTx
  tx_outputs_length : r.tx.outputs.length = outputs.length
  rhos_length : r.outputRhos.length = outputs.length
  tx_outputs : ∀ k so, outputs[k]? = some so → ∃ out rho, r.tx.outputs[k]? = some out ∧ r.outputRhos[k]? = some rho ∧
    SentOutput W (pqTransactionInputsHash W r.tx.toTransactionPrefix) coins k so out rho
  sum_lt : weight amountOf inputs < 2 ^ 64
  balance : weight amountOf inputs = (outputs.map fun so => so.amount.toNat).sum + fee.toNat
  unsigned : pqUnsignedTx r.tx fee = some u
  signatures : r.tx.pqSignatures = signInputs W inputAuth
    ((signers r.tx.inputs).zip (signingDigests W.toPrimitives signing u (signers r.tx.inputs)))

theorem Built.of_ok {inputs : List PqSpendInput} {outputs : List PqSendOutput} {inputAuth : List PqInputAuth}
    {unlockHeight : UInt64} {extra : Bytes} {signing : PqSigningContext} {txType : UInt8}
    {coins : Nat → OutputCoins} {r : PqTransactionBuildResult}
    (h : buildPqTransactionWithProof W inputs outputs inputAuth unlockHeight extra signing txType coins = .ok r) :
    ∃ fee u, Built W inputs outputs inputAuth extra signing txType coins r fee u := by
  unfold buildPqTransactionWithProof at h
  split at h; · simp at h
  split at h; · simp at h
  split at h; · simp at h
  split at h; · simp at h
  split at h; · simp at h
  split at h; · simp at h
  split at h; · simp at h
  rename_i hne hone hunlock hauth hgrouped hmax homax
  split at h; · simp at h
  rename_i ins hins
  split at h; · simp at h
  rename_i hkeys
  dsimp only at h
  split at h; · simp at h
  rename_i outs houts
  split at h; · simp at h
  rename_i hle
  split at h; · simp at h
  rename_i u hu
  simp only [Except.ok.injEq] at h
  obtain ⟨hinputs, hcount, hsumIn⟩ := buildInputs_spec hins
  obtain ⟨⟨os, rhos, hos, hrhos, holen, hrlen, hall⟩, hsumOut⟩ := buildOutputs_spec rfl houts
  simp only [nil_append, UInt64.toNat_zero, Nat.zero_add, length_nil] at hinputs hcount hsumIn hos hrhos hall hsumOut
  have hauth : inputAuth.length = inputs.length := by simpa using hauth
  have hfst : (inputs.zip inputAuth).map Prod.fst = inputs := map_fst_zip (by omega)
  rw [hfst] at hsumIn
  have hlt := ins.sumIn.toNat_lt
  have hsub : (ins.sumIn - outs.sumOut).toNat = ins.sumIn.toNat - outs.sumOut.toNat :=
    UInt64.toNat_sub_of_le _ _ (UInt64.not_lt.mp hle)
  rw [UInt64.lt_iff_toNat_lt] at hle
  subst h
  refine ⟨ins.sumIn - outs.sumOut, u, ?_⟩
  exact
    { inputs_ne := hne
      outputs_ne := hone
      auth_length := hauth
      grouped := fun hg => by simpa [hg] using hgrouped
      inputs_le := by
        unfold maxInputs maxPqInputsPerTx at hmax
        unfold maxPqGroupedInputsPerTx at hmax ⊢
        split at hmax <;> omega
      outputs_le := by omega
      tx_version := rfl
      tx_type := rfl
      tx_unlock := by simpa using hunlock
      tx_extra := rfl
      tx_inputs := by simp [hinputs]
      keys_le := by
        have hcp : pqSignatureCount (ins.inputs.map TransactionInput.pq) = ins.keyInputs := by
          rw [hcount, hinputs, pqSignatureCount, countP_map]
          rfl
        show pqSignatureCount (ins.inputs.map TransactionInput.pq) ≤ maxPqInputsPerTx
        omega
      tx_outputs_length := by
        show outs.outputs.length = _
        rw [hos, holen]
      rhos_length := by
        show outs.outputRhos.length = _
        rw [hrhos, hrlen]
      tx_outputs := fun k so hk => by
        obtain ⟨out, rho, h1, h2, h3⟩ := hall k so hk
        exact ⟨out, rho, by rw [← h1, ← hos], by rw [← h2, ← hrhos], h3⟩
      sum_lt := by omega
      balance := by omega
      unsigned := hu
      signatures := rfl }

/-! ## Nothing to refuse -/

/-- The input loop only stops on a sum that overflows. -/
theorem buildInputs_ok {g : Bool} : ∀ {l : List (PqSpendInput × PqInputAuth)} {s : InputBuild},
    s.sumIn.toNat + weight amountOf (l.map Prod.fst) < 2 ^ 64 → ∃ t, foldSteps (buildInput g) s l = .ok t
  | [], s, _ => ⟨s, rfl⟩
  | x :: l, s, h => by
    rw [map_cons, weight_cons, amountOf] at h
    have hsum : (s.sumIn + x.1.amount).toNat = s.sumIn.toNat + x.1.amount.toNat := by
      rw [UInt64.toNat_add]
      omega
    have hno : ¬ s.sumIn + x.1.amount < s.sumIn := by
      rw [UInt64.lt_iff_toNat_lt, hsum]
      omega
    obtain ⟨t, ht⟩ := buildInputs_ok (g := g) (l := l) (s :=
      { inputs := s.inputs ++ [spendInput g s.earlier x]
        earlier := s.earlier ++ [x.2.spendPub]
        keyInputs := if (spendInput g s.earlier x).keyRef = pqNoKeyRef then s.keyInputs + 1 else s.keyInputs
        sumIn := s.sumIn + x.1.amount }) (by
          show (s.sumIn + x.1.amount).toNat + _ < _
          omega)
    exact ⟨t, foldSteps_cons_ok.mpr ⟨_, by rw [buildInput, if_neg hno], ht⟩⟩

/-- The output loop only stops on a sum that overflows: the self-check passes. -/
theorem buildOutputs_ok (hW : W.Correct) (ih : Hash) (coins : Nat → OutputCoins) :
    ∀ (l : List PqSendOutput) {s : OutputBuild}, s.sumOut.toNat + (l.map fun so => so.amount.toNat).sum < 2 ^ 64 →
        ∃ t, foldSteps (buildOutput W ih coins) s l = .ok t
  | [], s, _ => ⟨s, rfl⟩
  | so :: l, s, h => by
    rw [map_cons, sum_cons] at h
    have hsum : (s.sumOut + so.amount).toNat = s.sumOut.toNat + so.amount.toNat := by
      rw [UInt64.toNat_add]
      omega
    have hno : ¬ s.sumOut + so.amount < s.sumOut := by
      rw [UInt64.lt_iff_toNat_lt, hsum]
      omega
    obtain ⟨s', hs', hsum'⟩ : ∃ s', buildOutput W ih coins s so = .ok s' ∧
        s'.sumOut.toNat = s.sumOut.toNat + so.amount.toNat := by
      simp only [buildOutput, buildPqOutput_eq hW, if_neg hno]
      exact ⟨_, rfl, hsum⟩
    obtain ⟨t, ht⟩ := buildOutputs_ok hW ih coins l (s := s') (by omega)
    exact ⟨t, foldSteps_cons_ok.mpr ⟨s', hs', ht⟩⟩

/-- Under grouped authorization an input carries its key when no earlier one has it. -/
theorem keyRefOf_true_iff {earlier : List DsaPublicKey} {p : DsaPublicKey} (hlen : earlier.length < 2 ^ 32) :
    keyRefOf true earlier p = pqNoKeyRef ↔ p ∉ earlier := by
  rw [keyRefOf, if_pos rfl]
  cases hfind : earlier.findIdx? fun q => decide (q = p) with
  | none =>
    have hall := findIdx?_eq_none_iff.mp hfind
    simp only [true_iff]
    intro hmem
    simpa using hall p hmem
  | some j =>
    obtain ⟨hj, hkey, -⟩ := findIdx?_eq_some_iff_getElem.mp hfind
    have hmem : p ∈ earlier := (of_decide_eq_true hkey) ▸ getElem_mem hj
    have hne : UInt32.ofNat j ≠ pqNoKeyRef := by
      intro h
      have := congrArg UInt32.toNat h
      rw [UInt32.toNat_ofNat'] at this
      change j % 2 ^ 32 = 2 ^ 32 - 1 at this
      omega
    simp [hne, hmem]

/-- As many inputs carry a key as there are keys. -/
theorem spendInputs_carriers : ∀ (l : List (PqSpendInput × PqInputAuth)) (earlier : List DsaPublicKey),
    earlier.length + l.length < 2 ^ 32 →
      earlier.toFinset.card + (spendInputs true earlier l).countP PqInput.carriesKey =
        (earlier ++ l.map fun x => x.2.spendPub).toFinset.card
  | [], earlier, _ => by simp [spendInputs]
  | x :: l, earlier, hlen => by
    rw [length_cons] at hlen
    have ih := spendInputs_carriers l (earlier ++ [x.2.spendPub]) (by
      rw [length_append, length_singleton]
      omega)
    have hkey := keyRefOf_true_iff (p := x.2.spendPub) (show earlier.length < 2 ^ 32 by omega)
    have hinsert : (earlier ++ [x.2.spendPub]).toFinset = insert x.2.spendPub earlier.toFinset := by
      ext p
      simp
    rw [hinsert, append_assoc, singleton_append] at ih
    rw [spendInputs, countP_cons, map_cons]
    by_cases hmem : x.2.spendPub ∈ earlier
    · have href : PqInput.carriesKey (spendInput true earlier x) = false := by
        simpa [PqInput.carriesKey, spendInput, hkey] using hmem
      rw [Finset.insert_eq_of_mem (List.mem_toFinset.mpr hmem)] at ih
      simpa [href] using ih
    · have hcarries : PqInput.carriesKey (spendInput true earlier x) = true := by
        simpa [PqInput.carriesKey, spendInput, hkey] using hmem
      rw [Finset.card_insert_of_notMem (by simpa using hmem)] at ih
      simp only [hcarries, if_true]
      omega

/-- No more inputs carry a key than the cap allows. -/
theorem spendInputs_carriers_le {g : Bool} {l : List (PqSpendInput × PqInputAuth)} {n : Nat}
    (hlen : l.length ≤ if g then 256 else n) (hkeys : g = true → (l.map fun x => x.2.spendPub).toFinset.card ≤ n) :
    (spendInputs g [] l).countP PqInput.carriesKey ≤ n := by
  cases g with
  | false =>
    have := countP_le_length (p := PqInput.carriesKey) (l := spendInputs false [] l)
    rw [spendInputs_length] at this
    simp only [Bool.false_eq_true, if_false] at hlen
    omega
  | true =>
    simp only [if_true] at hlen
    have hcount := spendInputs_carriers l [] (by simp; omega)
    have := hkeys rfl
    simp only [toFinset_nil, Finset.card_empty, nil_append] at hcount
    omega

/-- With inputs within both caps, outputs they cover and nothing that overflows, the
transaction is built. -/
theorem buildPqTransactionWithProof_ok (hW : W.Correct) {inputs : List PqSpendInput}
    {outputs : List PqSendOutput} {inputAuth : List PqInputAuth} {extra : Bytes} {signing : PqSigningContext}
    {txType : UInt8} {coins : Nat → OutputCoins} (hinputs : inputs ≠ []) (houtputs : outputs ≠ [])
    (hauth : inputAuth.length = inputs.length) (hv2 : signing.groupedAuth = true → signing.useV2 = true)
    (hmax : inputs.length ≤ maxInputs signing) (homax : outputs.length ≤ maxPqOutputsPerTx)
    (hkeys : signing.groupedAuth = true →
      ((inputs.zip inputAuth).map fun x => x.2.spendPub).toFinset.card ≤ maxPqInputsPerTx)
    (hsum : weight amountOf inputs < 2 ^ 64)
    (hcover : (outputs.map fun so => so.amount.toNat).sum ≤ weight amountOf inputs) :
    ∃ r, buildPqTransactionWithProof W inputs outputs inputAuth 0 extra signing txType coins = .ok r := by
  have hfst : (inputs.zip inputAuth).map Prod.fst = inputs := map_fst_zip (by omega)
  obtain ⟨ins, hins⟩ := buildInputs_ok (g := signing.groupedAuth) (l := inputs.zip inputAuth)
    (s := ⟨[], [], 0, 0⟩) (by rw [hfst, UInt64.toNat_zero]; omega)
  obtain ⟨hbuilt, hcount, hsumIn⟩ := buildInputs_spec hins
  rw [hfst, UInt64.toNat_zero, Nat.zero_add] at hsumIn
  rw [nil_append] at hbuilt
  rw [Nat.zero_add] at hcount
  have hcarriers : ins.keyInputs ≤ maxPqInputsPerTx := by
    rw [hcount]
    refine spendInputs_carriers_le ?_ hkeys
    rw [length_zip, hauth, Nat.min_self]
    exact hmax
  obtain ⟨outs, houts⟩ := buildOutputs_ok hW (pqTransactionInputsHash W
    { version := transactionVersion1, txType := txType, unlockHeight := 0
      inputs := ins.inputs.map .pq, outputs := [], extra := extra }) coins outputs (s := ⟨[], [], 0⟩)
    (by rw [UInt64.toNat_zero]; omega)
  obtain ⟨⟨os, rhos, hos, -, holen, -, hall⟩, hsumOut⟩ := buildOutputs_spec rfl houts
  rw [UInt64.toNat_zero, Nat.zero_add] at hsumOut
  rw [nil_append] at hos
  have hle : ¬ ins.sumIn < outs.sumOut := by
    rw [UInt64.lt_iff_toNat_lt]
    omega
  -- every input and every output has a form in the transcript
  obtain ⟨dins, hdins⟩ := mapM_isSome (f := digestOfInput) (l := ins.inputs.map TransactionInput.pq)
    fun t ht => by
      obtain ⟨inp, -, rfl⟩ := List.mem_map.mp ht
      rfl
  obtain ⟨douts, hdouts⟩ := mapM_isSome (f := digestOfOutput) (l := outs.outputs) fun out hout => by
    rw [hos] at hout
    obtain ⟨k, hk⟩ := getElem?_of_mem hout
    have hlt : k < outputs.length := holen ▸ (List.getElem?_eq_some_iff.mp hk).1
    obtain ⟨out', rho, hget, -, ⟨b, -, hout', -⟩⟩ := hall k outputs[k] (getElem?_eq_getElem hlt)
    have heq : out = out' := Option.some.inj (hk.symm.trans hget)
    rw [heq, hout']
    rfl
  unfold buildPqTransactionWithProof
  rw [if_neg hinputs, if_neg houtputs, if_neg (by simp), if_neg (by simp [hauth]), if_neg (by
      rintro ⟨hg, hno⟩
      exact hno (hv2 hg)), if_neg (by omega), if_neg (by omega), hins]
  dsimp only
  rw [if_neg (by omega), houts]
  dsimp only
  rw [if_neg hle]
  simp only [pqUnsignedTx, hdins, hdouts, Option.bind_eq_bind, Option.bind_some, Option.pure_def]
  exact ⟨_, rfl⟩

/-! ## Consensus accepts it -/

section
variable {inputs : List PqSpendInput} {outputs : List PqSendOutput} {inputAuth : List PqInputAuth}
  {extra : Bytes} {signing : PqSigningContext} {txType : UInt8} {coins : Nat → OutputCoins}
  {r : PqTransactionBuildResult} {fee : UInt64} {u : UnsignedTx}

section
variable (h : Built W inputs outputs inputAuth extra signing txType coins r fee u)
include h

theorem Built.pqInputs : r.tx.pqInputs = spendInputs signing.groupedAuth [] (inputs.zip inputAuth) := by
  rw [TransactionPrefix.pqInputs, h.tx_inputs, filterMap_map]
  exact filterMap_some

/-- The inputs of the transaction name the selected outputs, in order. -/
theorem Built.outpoints :
    r.tx.pqInputs.map (fun i => (i.prevTxid, i.prevOutIndex)) =
      inputs.map fun si => (si.prevTxid, si.prevOutIndex) := by
  have hfst : (inputs.zip inputAuth).map Prod.fst = inputs := map_fst_zip (by rw [h.auth_length])
  rw [h.pqInputs, spendInputs_map (fun x => (x.1.prevTxid, x.1.prevOutIndex)) _ (fun _ _ => rfl)]
  conv_rhs => rw [← hfst, List.map_map]
  rfl

theorem Built.pair_lt {i : Nat} (hi : i < r.tx.inputs.length) : i < (inputs.zip inputAuth).length := by
  rwa [h.tx_inputs, length_map, spendInputs_length] at hi

/-- The input in position `i` spends the `i`-th selected output under its key. -/
theorem Built.input_at {i : Nat} {x : PqSpendInput × PqInputAuth} (hx : (inputs.zip inputAuth)[i]? = some x) :
    ∃ earlier, r.tx.inputs[i]? = some (.pq (spendInput signing.groupedAuth earlier x)) := by
  refine ⟨[] ++ ((inputs.zip inputAuth).take i).map fun y => y.2.spendPub, ?_⟩
  rw [h.tx_inputs, getElem?_map, spendInputs_getElem?, hx]
  rfl

theorem Built.refs {i : Nat} (hi : i < r.tx.inputs.length) :
    ∃ inp, r.tx.inputs[i]? = some (.pq inp) ∧ pqInputFieldsValid inp = true ∧ RefOk r.tx.inputs i inp ∧
      (inp.keyRef = pqNoKeyRef ∨ signing.groupedAuth = true) := by
  have hlen : (inputs.zip inputAuth).length ≤ 256 := by
    have := h.inputs_le
    unfold maxPqGroupedInputsPerTx at this
    rw [length_zip]
    omega
  obtain ⟨earlier, hget⟩ := h.input_at (getElem?_eq_getElem (h.pair_lt hi))
  rw [h.tx_inputs, getElem?_map] at hget
  obtain ⟨inp, hinp, he⟩ := Option.map_eq_some_iff.mp hget
  simp only [TransactionInput.pq.injEq] at he
  obtain ⟨href, hallowed⟩ := spendInputs_refOk signing.groupedAuth hlen hinp
  refine ⟨inp, by rw [h.tx_inputs, getElem?_map, hinp]; rfl, ?_, h.tx_inputs ▸ href, hallowed⟩
  rw [he]
  exact spendInput_fieldsValid _ _ _

theorem Built.signatures_length : r.tx.pqSignatures.length = (signers r.tx.inputs).length := by
  have hall : ∀ x ∈ (signers r.tx.inputs).zip (signingDigests W.toPrimitives signing u (signers r.tx.inputs)),
      ((inputAuth[x.1]?).map fun auth => W.dsaSign auth.spendSk x.2.val).isSome = true := by
    intro x hx
    have hmem := of_mem_zip hx
    have hlt : x.1 < r.tx.inputs.length := mem_range.mp (mem_filter.mp hmem.1).1
    have hlt := h.pair_lt hlt
    rw [length_zip] at hlt
    simp only [Option.isSome_map]
    rw [getElem?_eq_getElem (by omega)]
    rfl
  rw [h.signatures, signInputs, length_filterMap_eq_countP, countP_eq_length.mpr hall, length_zip,
    signingDigests_length]
  simp

end

/-- The semantic check, given what the caller answers for. -/
theorem Built.semantic (hW : W.Correct) (h : Built W inputs outputs inputAuth extra signing txType coins r fee u)
    (htype : isPqTransfer txType = true) (hextra : extra.length ≤ maxExtraSizePq)
    (hamount : ∀ so ∈ outputs, so.amount ≠ 0) (hsize : (toBinaryArray r.tx).length ≤ maxPqTxSize) :
    SemanticOk r.tx where
  transfer := h.tx_type ▸ htype
  inputs_ne := by
    have hne := h.inputs_ne
    intro hnil
    have hzero := congrArg List.length hnil
    rw [h.tx_inputs, length_map, spendInputs_length, length_zip, h.auth_length] at hzero
    simp at hzero
    exact hne hzero
  outputs_ne := by
    intro hnil
    have hzero := h.tx_outputs_length
    rw [hnil] at hzero
    exact h.outputs_ne (length_eq_zero_iff.mp hzero.symm)
  inputs_le := by
    rw [h.tx_inputs, length_map, spendInputs_length, length_zip]
    have := h.inputs_le
    omega
  outputs_le := h.tx_outputs_length ▸ h.outputs_le
  unlock := h.tx_unlock
  inputs := fun i hi => by
    obtain ⟨inp, hget, hfields, href, -⟩ := h.refs hi
    exact ⟨inp, hget, hfields, href⟩
  keys_le := h.keys_le
  sigs := by rw [h.signatures_length, signers_length]
  extra_le := h.tx_extra ▸ hextra
  outputs := fun out hout => by
    obtain ⟨k, hk⟩ := getElem?_of_mem hout
    have hlt : k < outputs.length := h.tx_outputs_length ▸ (List.getElem?_eq_some_iff.mp hk).1
    obtain ⟨out', rho, hget, -, ⟨b, hb, hout', -⟩⟩ := h.tx_outputs k outputs[k] (getElem?_eq_getElem hlt)
    have heq : out = out' := Option.some.inj (hk.symm.trans hget)
    refine ⟨⟨b.kemCt.val, b.encPayload, b.spendCommit⟩, by rw [heq, hout'], ?_, ?_⟩
    · rw [heq, hout']
      exact hamount _ (getElem_mem hlt)
    · simp [pqOutputFieldsValid, buildPqOutput_sizes hW hb, b.kemCt.property]
  size_le := hsize

/-- The secret key signs for the public one. -/
def PqInputAuth.Paired (W : WalletPrimitives) (a : PqInputAuth) : Prop :=
  ∀ msg, W.dsaVerify a.spendPub msg (W.dsaSign a.spendSk msg) = true

theorem toDsaPub_val (p : DsaPublicKey) : toDsaPub p.val = p := Subtype.ext (toArray_val p.property)

theorem toRho_val (r : Rho) : toRho r.val = r := Subtype.ext (toArray_val r.property)

/-- Position by position, what `signInputs` produces for a full list of keys. -/
theorem signInputs_getElem? {signed : List (Nat × Hash)} (hall : ∀ x ∈ signed, x.1 < inputAuth.length) :
    ∀ {k : Nat} {x : Nat × Hash}, signed[k]? = some x → ∃ auth, inputAuth[x.1]? = some auth ∧
      (signInputs W inputAuth signed)[k]? = some (W.dsaSign auth.spendSk x.2.val) := by
  induction signed with
  | nil => simp
  | cons y signed ih =>
    intro k x hk
    obtain ⟨first, hy⟩ : ∃ first, inputAuth[y.1]? = some first :=
      ⟨_, getElem?_eq_getElem (hall y (by simp))⟩
    have hcons : signInputs W inputAuth (y :: signed) =
        W.dsaSign first.spendSk y.2.val :: signInputs W inputAuth signed := by
      simp [signInputs, hy]
    cases k with
    | zero =>
      simp only [getElem?_cons_zero, Option.some.injEq] at hk
      subst hk
      exact ⟨_, hy, by rw [hcons]; rfl⟩
    | succ k =>
      obtain ⟨auth, ha, hs⟩ := ih (fun z hz => hall z (by simp [hz])) (by simpa using hk)
      exact ⟨auth, ha, by rw [hcons]; simpa using hs⟩

theorem Built.signed (h : Built W inputs outputs inputAuth extra signing txType coins r fee u)
    (hpaired : ∀ a ∈ inputAuth, a.Paired W) :
    ∀ x ∈ (signers r.tx.inputs).zip
        ((signingDigests W.toPrimitives signing u (signers r.tx.inputs)).zip r.tx.pqSignatures),
      verifySigner W.toPrimitives r.tx x = .ok () := by
  rintro ⟨j, d, sig⟩ hmem
  have hrange : ∀ i ∈ signers r.tx.inputs, i < (inputs.zip inputAuth).length := fun i hi =>
    h.pair_lt (mem_range.mp (mem_filter.mp hi).1)
  have hall : ∀ x ∈ (signers r.tx.inputs).zip (signingDigests W.toPrimitives signing u (signers r.tx.inputs)),
      x.1 < inputAuth.length := by
    intro x hx
    have hlt := hrange x.1 (of_mem_zip hx).1
    rw [length_zip] at hlt
    omega
  obtain ⟨k, hk⟩ := getElem?_of_mem hmem
  obtain ⟨hj, hrest⟩ := getElem?_zip_eq_some.mp hk
  obtain ⟨hd, hsig⟩ := getElem?_zip_eq_some.mp hrest
  obtain ⟨auth, hauth, hsigned⟩ := signInputs_getElem? (x := (j, d)) hall
    (getElem?_zip_eq_some.mpr ⟨hj, hd⟩)
  -- the signature in this place is the one made with the key of input `j`
  have hsig : sig = W.dsaSign auth.spendSk d.val := by
    rw [h.signatures, hsigned] at hsig
    exact (Option.some.inj hsig).symm
  have hlt := hrange j (mem_of_getElem? hj)
  obtain ⟨earlier, hin⟩ := h.input_at (getElem?_eq_getElem hlt)
  have hpair : (inputs.zip inputAuth)[j].2 = auth := by
    have := (getElem?_zip_eq_some.mp (getElem?_eq_getElem hlt)).2
    exact Option.some.inj (this.symm.trans hauth)
  unfold verifySigner
  simp only [hin, spendInput, hpair, toDsaPub_val]
  rw [hsig, hpaired auth (mem_of_getElem? hauth), if_pos rfl]

theorem Built.amounts (h : Built W inputs outputs inputAuth extra signing txType coins r fee u) :
    r.tx.outputs.map (fun o => o.amount) = outputs.map fun so => so.amount := by
  apply ext_getElem?
  intro k
  rw [getElem?_map, getElem?_map]
  by_cases hk : k < outputs.length
  · obtain ⟨out, rho, hget, -, ⟨b, -, hout, -⟩⟩ := h.tx_outputs k outputs[k] (getElem?_eq_getElem hk)
    rw [hget, getElem?_eq_getElem hk, hout]
    rfl
  · rw [getElem?_eq_none (by rw [h.tx_outputs_length]; omega), getElem?_eq_none (by omega)]
    rfl

/-- The strings hashed into the nullifiers of the inputs. -/
def nullifierPreimages (l : List (PqSpendInput × PqInputAuth)) : Set Bytes :=
  {b | ∃ x ∈ l, b = nullifierPreimage x.2.spendPub x.1.rho x.1.prevTxid x.1.prevOutIndex}

section
variable (h : Built W inputs outputs inputAuth extra signing txType coins r fee u)
include h

theorem Built.nullifiers_nodup (hdistinct : (inputs.map fun si => (si.prevTxid, si.prevOutIndex)).Nodup)
    (hfree : Set.InjOn W.sha3_256 (nullifierPreimages (inputs.zip inputAuth))) :
    (r.tx.pqInputs.map (pqNullifier W.toPrimitives)).Nodup := by
  have hmap : r.tx.pqInputs.map (pqNullifier W.toPrimitives) = (inputs.zip inputAuth).map fun x =>
      nullifier W.toPrimitives x.2.spendPub x.1.rho x.1.prevTxid x.1.prevOutIndex := by
    rw [h.pqInputs]
    apply spendInputs_map
    intro earlier x
    rw [pqNullifier, if_pos (spendInput_fieldsValid _ _ _)]
    simp only [spendInput, toDsaPub_val, toRho_val]
  have hfst : (inputs.zip inputAuth).map Prod.fst = inputs := map_fst_zip (by rw [h.auth_length])
  have hpairs : ((inputs.zip inputAuth).map fun x => (x.1.prevTxid, x.1.prevOutIndex)).Nodup := by
    rw [← hfst, List.map_map] at hdistinct
    exact hdistinct
  rw [hmap]
  refine List.Nodup.map_on ?_ (List.Nodup.of_map _ hpairs)
  intro x hx y hy he
  have hpre := hfree ⟨x, hx, rfl⟩ ⟨y, hy, rfl⟩ he
  obtain ⟨-, -, htx, hidx⟩ := nullifierPreimage_inj hpre
  exact inj_on_of_nodup_map hpairs hx hy (by rw [htx, hidx])

/-- The amounts the check finds are those of the selected inputs. -/
theorem Built.resolved_amounts
    {resolve : Hash → UInt32 → PqResolvedInput}
    (hresolve : ∀ x ∈ inputs.zip inputAuth, resolve x.1.prevTxid x.1.prevOutIndex =
      ⟨spendCommit W.toPrimitives x.2.spendPub x.1.rho, x.1.amount, true, true⟩) :
    ((r.tx.pqInputs.map fun i => resolve i.prevTxid i.prevOutIndex).map fun r => r.amount.toNat) =
      inputs.map amountOf := by
  have hfst : (inputs.zip inputAuth).map Prod.fst = inputs := map_fst_zip (by rw [h.auth_length])
  have hpairs : (inputs.zip inputAuth).map (fun x => (resolve x.1.prevTxid x.1.prevOutIndex).amount.toNat) =
      (inputs.zip inputAuth).map fun x => amountOf x.1 :=
    map_congr_left fun x hx => by rw [hresolve x hx, amountOf]
  rw [h.pqInputs, List.map_map, spendInputs_map (fun x => (resolve x.1.prevTxid x.1.prevOutIndex).amount.toNat) _
    (fun _ _ => rfl), hpairs]
  conv_rhs => rw [← hfst, List.map_map]
  rfl

/-- The check against the referenced outputs, when those are the wallet's. -/
theorem Built.inputsOk
    (hpaired : ∀ a ∈ inputAuth, a.Paired W) {resolve : Hash → UInt32 → PqResolvedInput}
    (hresolve : ∀ x ∈ inputs.zip inputAuth, resolve x.1.prevTxid x.1.prevOutIndex =
      ⟨spendCommit W.toPrimitives x.2.spendPub x.1.rho, x.1.amount, true, true⟩)
    (hdistinct : (inputs.map fun si => (si.prevTxid, si.prevOutIndex)).Nodup)
    (hfree : Set.InjOn W.sha3_256 (nullifierPreimages (inputs.zip inputAuth))) {minFee : Nat}
    (hfloor : pqTxFeeFloor minFee extra.length ≤ fee.toNat) :
    InputsOk W.toPrimitives r.tx (r.tx.pqInputs.map fun i => resolve i.prevTxid i.prevOutIndex) minFee signing
      (r.tx.pqInputs.map (pqNullifier W.toPrimitives)) fee u := by
  have hinputs : r.tx.inputs = r.tx.pqInputs.map .pq := by rw [h.tx_inputs, h.pqInputs]
  exact
    { resolved_length := by rw [hinputs, length_map, length_map]
      refs := fun i hi => by
        obtain ⟨inp, hget, -, href, hallowed⟩ := h.refs hi
        refine ⟨inp, hget, href, hallowed.imp_right fun hg => ?_⟩
        rw [hg, h.grouped hg]
        rfl
      sigs := h.signatures_length
      owned := fun x hx => by
        rw [hinputs, zip_map', List.mem_map] at hx
        obtain ⟨i, hi, rfl⟩ := hx
        rw [h.pqInputs] at hi
        obtain ⟨k, hk⟩ := getElem?_of_mem hi
        rw [spendInputs_getElem?] at hk
        obtain ⟨p, hp, rfl⟩ := Option.map_eq_some_iff.mp hk
        have hres := hresolve p (mem_of_getElem? hp)
        refine ⟨_, rfl, spendInput_fieldsValid _ _ _, ?_, ?_, ?_⟩
        · simp only [spendInput, hres]
        · simp only [spendInput, hres]
        · simp only [spendInput, hres, toDsaPub_val, toRho_val]
      nullifiers := by rw [hinputs, L3.zip_map_pq]
      nodup := h.nullifiers_nodup hdistinct hfree
      balance := by
        have hout := congrArg (fun l => (l.map UInt64.toNat).sum) h.amounts
        simp only [List.map_map, Function.comp_def] at hout
        rw [h.resolved_amounts hresolve, hout]
        exact h.balance
      floor := fun _ => by rw [h.tx_extra]; exact hfloor
      unsigned := h.unsigned
      signed := h.signed hpaired }

end

end

end

end Discrete.L6
