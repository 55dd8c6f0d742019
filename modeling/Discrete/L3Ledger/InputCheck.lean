import Discrete.L2Validation.TxGate
import Discrete.L3Ledger.Db

/-!
# Inputs against the chain (`Blockchain.cpp`, `Checkpoints.cpp`)

`checkTransactionInputs` resolves what a transaction refers to in the database it
is checked against and hands it to `checkPqTransactionInputs`. The two caches of
registration proofs are left out: they memoise `checkFreeRegTransactionPow`, which
reads nothing but the transaction.

* `PqInputsOk.of_some`: what `checkPqInputs` establishes about every input, and
  that `getPqTransactionFee` then returns the fee the signatures commit to.
-/
namespace Discrete.L3
open L1 L2

/-! ## Checkpoints -/

/-- `std::map<uint32_t, Crypto::Hash>`: ascending heights. -/
structure Checkpoints where
  points : List (Nat × Hash)
  ascending : (points.map Prod.fst).Pairwise (· < ·)

namespace Checkpoints
variable (c : Checkpoints)

/-- mirrors Checkpoints.cpp:88-90 -/
def isInCheckpointZone (height : Nat) : Bool :=
  match c.points.getLast? with
  | none => false
  | some p => decide (height ≤ p.1)

/-- The verdict, and whether there is a checkpoint at this height.
mirrors Checkpoints.cpp:92-109 -/
def checkBlock (height : Nat) (h : Hash) : Bool × Bool :=
  match c.points.lookup height with
  | none => (true, false)
  | some p => (decide (p = h), true)

/-- mirrors Checkpoints.cpp:123-127 -/
def isFinalityViolation (blockchainHeight blockHeight : Nat) : Bool :=
  decide (blockHeight + finalityDepth < blockchainHeight) && !c.isInCheckpointZone blockHeight

/-- mirrors Checkpoints.cpp:129-149 -/
def isAlternativeBlockAllowed (blockchainHeight blockHeight : Nat) : Bool :=
  if blockHeight = 0 then false
  else if c.isFinalityViolation blockchainHeight blockHeight then false
  else
    match (c.points.filter (fun p => p.1 ≤ blockchainHeight)).getLast? with
    | none => true
    | some p => decide (p.1 < blockHeight)

/-- No checkpoints. -/
def none : Checkpoints := ⟨[], by simp⟩

@[simp] theorem none_isInCheckpointZone (height : Nat) : none.isInCheckpointZone height = false := rfl

end Checkpoints

/-- What a node is built with. -/
structure Env where
  prims : NodePrimitives
  currency : Currency
  checkpoints : Checkpoints

/-- The hashes and signatures alone. -/
abbrev Env.P (E : Env) : Primitives := E.prims.toPrimitives

/-! ## Referenced outputs -/

/-- mirrors Blockchain.cpp:1950-1971 -/
def Db.pqReferencedTx (db : Db) (txid : Hash) : Option (Nat × List TransactionOutput) :=
  match db.txIndex txid with
  | none => none
  | some (block, slot) => (db.transactionByIndex block slot).map fun tx => (block, tx.outputs)

/-- The output an input points at, with the height of its block. -/
def Db.referencedOutput (db : Db) (inp : PqInput) : Option (Nat × TransactionOutput) :=
  match db.pqReferencedTx inp.prevTxid with
  | none => none
  | some (block, outputs) => (outputs[inp.prevOutIndex.toNat]?).map (block, ·)

/-- What a PQ input can spend: transfer outputs and coinbase outputs. -/
def spendCommitOf : TransactionOutputTarget → Option Hash
  | .key _ => none
  | .pq o => some o.spendCommit
  | .coinbase o => some o.spendCommit

/-- `currentHeight - 1` is taken in 32 bits before the sum is taken in 64.
mirrors Blockchain.cpp:2295-2300 -/
def Db.isTxSpendheightUnlocked (db : Db) (unlockHeight : UInt64) : Bool :=
  if unlockHeight = 0 then true
  else if unlockHeight.toNat > maxBlockHeight then false
  else decide ((db.getChainHeight + (2 ^ 32 - 1)) % 2 ^ 32 + lockedTxAllowedDeltaBlocks ≥ unlockHeight.toNat)

/-- A default `PqResolvedInput`: nothing to spend. -/
def unresolved : PqResolvedInput where
  spendCommit := nullHash
  amount := 0
  present := false
  isPqOutput := false

/-- One turn of the resolution loop: what the input refers to, and the height it
adds to the maximum.
mirrors Blockchain.cpp:2021-2047 -/
def Db.resolveInput (db : Db) (inp : PqInput) : PqResolvedInput × Nat :=
  match db.referencedOutput inp with
  | none => (unresolved, 0)
  | some (block, o) =>
    match spendCommitOf o.target with
    | none => (unresolved, 0)
    | some commit =>
      if db.isTxSpendheightUnlocked o.unlockHeight then (⟨commit, o.amount, true, true⟩, block)
      else (unresolved, 0)

/-- `some h`: accepted, with `h` the greatest height referred to.
mirrors Blockchain.cpp:1973-2059 -/
def checkPqInputs (E : Env) (db : Db) (tx : Transaction) : Option Nat :=
  let signing := E.currency.pqSigningContextForHeight db.getChainHeight
  if ¬ tx.inputs.all (fun t => t.pq?.isSome) then none
  else if ¬ tx.pqInputs.all (fun i => i.carriesKey || (signing.groupedAuth && signing.useV2)) then none
  else if tx.pqInputs.any (fun i => (db.spentKeys (pqNullifier E.P i)).isSome) then none
  else
    let resolved := tx.pqInputs.map db.resolveInput
    match checkPqTransactionInputs E.P tx (resolved.map Prod.fst) minimumFee signing with
    | .error _ => none
    | .ok _ => some ((resolved.map Prod.snd).foldl max 0)

/-- What one input adds to the sum: nothing unless it refers to a spendable
output. Locks are not looked at. -/
def Db.referencedAmount (db : Db) (inp : PqInput) : UInt64 :=
  match db.referencedOutput inp with
  | none => 0
  | some (_, o) => if (spendCommitOf o.target).isSome then o.amount else 0

/-- mirrors Blockchain.cpp:2061-2077 -/
def pqReferencedInputAmount (db : Db) (tx : Transaction) : UInt64 :=
  (tx.pqInputs.map db.referencedAmount).sum

/-- mirrors Blockchain.cpp:2079-2088 -/
def getPqTransactionFee (db : Db) (tx : Transaction) : Option UInt64 :=
  let inAmount := pqReferencedInputAmount db tx
  let outAmount := getOutputAmount tx
  if outAmount > inAmount then none else some (inAmount - outAmount)

/-! ## Registrations -/

/-- mirrors Blockchain.cpp:2286-2293 -/
def isPqAccountAlreadyRegistered (P : Primitives) (db : Db) (tx : Transaction) : Bool :=
  match getPqAccountRegistrationId P tx with
  | none => false
  | some accountId => (db.pqAcctReg accountId).isSome

/-- `some refHeight` when the chain admits the registration.
mirrors Blockchain.cpp:2112-2159 -/
def freeRegChainStateOk (E : Env) (db : Db) (tx : Transaction) : Option Nat :=
  match getPqAccountRegistrationFromExtra tx.extra, getPowTagFromExtra tx.extra with
  | some reg, some pow =>
    if db.getChainHeight ≥ E.currency.pqTranscriptV2Height ∧ ¬ isCanonicalFreeRegExtra tx.extra then none
    else
      match db.hashHeight pow.refBlockHash with
      | none => none
      | some refHeight =>
        if refHeight ≥ db.getChainHeight ∨ db.getChainHeight - refHeight > freeRegRefWindow then none
        else if (db.pqAcctReg (getPqAccountIdentityHash E.P reg)).isSome then none
        else some refHeight
  | _, _ => none

/-- mirrors Blockchain.cpp:2161-2203 -/
def checkFreeRegInputs (E : Env) (db : Db) (tx : Transaction) : Option Nat :=
  match freeRegChainStateOk E db tx with
  | none => none
  | some refHeight =>
    match checkFreeRegTransactionPow E.prims tx freeRegPowTarget with
    | .error _ => none
    | .ok () => some refHeight

/-- `none` is a refusal; `some none` is acceptance that leaves the caller's maximum
height as it was, which only happens for the coinbase type. A transfer is judged
at `validationHeight`, or at the tip without one.
mirrors Blockchain.cpp:1902-1946 -/
def checkTransactionInputs (E : Env) (db : Db) (tx : Transaction) (validationHeight : Option Nat) :
    Option (Option Nat) :=
  if tx.version ≠ transactionVersion1 then none
  else if (isPqTransfer tx.txType || tx.txType = txFreeReg) && isPqAccountAlreadyRegistered E.P db tx then none
  else if isPqTransfer tx.txType then
    if ¬ E.currency.isPqTransferTypeAllowedAt tx.txType (validationHeight.getD db.getChainHeight) then none
    else (checkPqInputs E db tx).map some
  else if tx.txType = txFreeReg then (checkFreeRegInputs E db tx).map some
  else if tx.txType = txCoinbase then some none
  else none

/-! ## What acceptance says -/

/-- An input refers to `out` in the block at `block`, may spend it now, and reveals
its key and randomness. -/
structure Spendable (P : Primitives) (db : Db) (inp : PqInput) (block : Nat) (out : TransactionOutput) :
    Prop where
  fields : pqInputFieldsValid inp = true
  referenced : db.referencedOutput inp = some (block, out)
  unlocked : db.isTxSpendheightUnlocked out.unlockHeight = true
  commit : spendCommitOf out.target = some (L2.spendCommit P (toDsaPub inp.authPub) (toRho inp.rhoReveal))

theorem Spendable.amount {P : Primitives} {db : Db} {inp : PqInput} {block : Nat} {out : TransactionOutput}
    (h : Spendable P db inp block out) : db.referencedAmount inp = out.amount := by
  unfold Db.referencedAmount
  rw [h.referenced]
  simp [h.commit]

/-- What `resolveInput` says about an input that passed the ownership check. -/
theorem Spendable.of_owned {P : Primitives} {db : Db} {inp : PqInput}
    (h : OwnedInput P (.pq inp, (db.resolveInput inp).1) inp) :
    ∃ block out, Spendable P db inp block out ∧ db.resolveInput inp =
      (⟨L2.spendCommit P (toDsaPub inp.authPub) (toRho inp.rhoReveal), out.amount, true, true⟩, block) := by
  have hpres := h.present
  have hcommit := h.commit
  simp only [Db.resolveInput] at hpres hcommit ⊢
  split at hpres
  · simp [unresolved] at hpres
  · rename_i block out href
    split at hpres
    · simp [unresolved] at hpres
    · rename_i commit hc
      split at hpres
      · rename_i hlock
        simp only [href, hc, hlock, if_true] at hcommit
        exact ⟨block, out, ⟨h.fields, href, hlock, by rw [hc, hcommit]⟩, by simp [hlock, hcommit]⟩
      · simp [unresolved] at hpres

/-- Everything `checkPqInputs` establishes. -/
structure PqInputsOk (P : Primitives) (db : Db) (tx : Transaction) (fee : UInt64) : Prop where
  inputs : tx.inputs = tx.pqInputs.map .pq
  unspent : ∀ i ∈ tx.pqInputs, db.spentKeys (pqNullifier P i) = none
  nodup : (spendImages P tx).Nodup
  spendable : ∀ i ∈ tx.pqInputs, ∃ block out, Spendable P db i block out
  balance : (tx.pqInputs.map fun i => (db.referencedAmount i).toNat).sum =
    (tx.outputs.map fun o => o.amount.toNat).sum + fee.toNat
  floor : pqTxFeeFloor minimumFee tx.extra.length ≤ fee.toNat
  fee : getPqTransactionFee db tx = some fee

theorem inputs_eq_map_pqInputs {tx : TransactionPrefix} (h : tx.inputs.all (fun t => t.pq?.isSome) = true) :
    tx.inputs = tx.pqInputs.map .pq := by
  unfold TransactionPrefix.pqInputs
  generalize tx.inputs = l at *
  induction l with
  | nil => rfl
  | cons t l ih =>
    simp only [List.all_cons, Bool.and_eq_true] at h
    obtain ⟨i, hi⟩ := Option.isSome_iff_exists.mp h.1
    rw [List.filterMap_cons_some hi, List.map_cons, ← ih h.2, TransactionInput.pq?_eq_some.mp hi]

/-- A sum of machine words, when the sum of the numbers fits. -/
theorem toNat_sum {l : List UInt64} (h : (l.map UInt64.toNat).sum < 2 ^ 64) :
    l.sum.toNat = (l.map UInt64.toNat).sum := by
  induction l with
  | nil => rfl
  | cons a l ih =>
    simp only [List.map_cons, List.sum_cons] at h ⊢
    rw [UInt64.toNat_add, ih (by omega), Nat.mod_eq_of_lt h]

theorem zip_map_pq {P : Primitives} {l : List PqInput} {f : PqInput → PqResolvedInput} :
    ((l.map TransactionInput.pq).zip (l.map f)).filterMap (entryNullifier P) = l.map (pqNullifier P) := by
  induction l with
  | nil => rfl
  | cons i l ih =>
    simp only [List.map_cons, List.zip_cons_cons]
    rw [List.filterMap_cons_some (by rfl), ih]

/-- The referenced amounts of a transfer fit one word: they are what the ownership
loop summed up. -/
theorem referenced_sum_lt {P : Primitives} {tx : Transaction} {resolved : List PqResolvedInput} {minFee : Nat}
    {signing : PqSigningContext} {nfs : List Hash} (h : checkPqTransactionInputs P tx resolved minFee signing = .ok nfs)
    : (resolved.map fun r => r.amount.toNat).sum < 2 ^ 64 := by
  unfold checkPqTransactionInputs at h
  split at h; · cases h
  rename_i hlen
  split at h; · cases h
  split at h; · cases h
  split at h; · cases h
  rename_i scan hscan
  have hsum := (scan_spec hscan).2.2.1
  have hlt := scan.sumIn.toNat_lt
  rw [← Function.comp_def (fun r : PqResolvedInput => r.amount.toNat) Prod.snd, ← List.map_map,
    List.map_snd_zip (by omega)] at hsum
  simp only [UInt64.toNat_zero, Nat.zero_add] at hsum
  omega

theorem PqInputsOk.of_some {E : Env} {db : Db} {tx : Transaction} {m : Nat} (h : checkPqInputs E db tx = some m) :
    ∃ fee, PqInputsOk E.P db tx fee := by
  unfold checkPqInputs at h
  dsimp only at h
  split at h; · cases h
  rename_i hall
  split at h; · cases h
  split at h; · cases h
  rename_i hspent
  split at h; · cases h
  rename_i nfs hnfs
  have hinputs := inputs_eq_map_pqInputs (not_not.mp hall)
  have hlt := referenced_sum_lt hnfs
  obtain ⟨fee, u, hok⟩ := InputsOk.of_ok hnfs
  have hspendable : ∀ i ∈ tx.pqInputs, ∃ block out, Spendable E.P db i block out ∧ db.resolveInput i =
      (⟨L2.spendCommit E.P (toDsaPub i.authPub) (toRho i.rhoReveal), out.amount, true, true⟩, block) := by
    intro i hi
    obtain ⟨k, hk⟩ := List.getElem?_of_mem hi
    have hin : tx.inputs[k]? = some (.pq i) := by rw [hinputs, List.getElem?_map, hk]; rfl
    obtain ⟨r, hr, hown⟩ := hok.at hin
    rw [List.getElem?_map, List.getElem?_map, hk] at hr
    simp only [Option.map_some, Option.some.injEq] at hr
    subst hr
    exact Spendable.of_owned hown
  -- the amounts the two functions see are the same
  have hamount : (tx.pqInputs.map db.resolveInput).map (fun r => r.1.amount) = tx.pqInputs.map db.referencedAmount := by
    rw [List.map_map]
    apply List.map_congr_left
    intro i hi
    obtain ⟨block, out, hsp, hres⟩ := hspendable i hi
    simp [hres, hsp.amount]
  have hsums : ((tx.pqInputs.map db.resolveInput).map Prod.fst).map (fun r => r.amount.toNat) =
      tx.pqInputs.map fun i => (db.referencedAmount i).toNat := by
    have := congrArg (List.map UInt64.toNat) hamount
    simpa [List.map_map, Function.comp_def] using this
  have hbal := hok.balance
  rw [hsums] at hbal hlt
  refine ⟨fee, hinputs, ?_, ?_, ?_, hbal, hok.floor (by decide), ?_⟩
  · intro i hi
    simp only [List.any_eq_true, not_exists, not_and] at hspent
    simpa using hspent i hi
  · have hnd := hok.nodup
    rw [hok.nullifiers, hinputs, List.map_map, zip_map_pq] at hnd
    exact hnd
  · intro i hi
    obtain ⟨block, out, hsp, -⟩ := hspendable i hi
    exact ⟨block, out, hsp⟩
  · have hin : (pqReferencedInputAmount db tx).toNat =
        (tx.pqInputs.map fun i => (db.referencedAmount i).toNat).sum := by
      unfold pqReferencedInputAmount
      rw [toNat_sum (by rw [List.map_map]; exact hlt), List.map_map]
      rfl
    have hout : (getOutputAmount tx).toNat = (tx.outputs.map fun o => o.amount.toNat).sum := by
      unfold getOutputAmount
      rw [toNat_sum (by rw [List.map_map]; simp only [Function.comp_def]; omega), List.map_map]
      rfl
    have hle : getOutputAmount tx ≤ pqReferencedInputAmount db tx :=
      UInt64.le_iff_toNat_le.mpr (by omega)
    unfold getPqTransactionFee
    dsimp only
    rw [if_neg (by rw [gt_iff_lt, UInt64.lt_iff_toNat_lt]; omega)]
    congr 1
    apply UInt64.toNat_inj.mp
    rw [UInt64.toNat_sub_of_le _ _ hle]
    omega

/-- Acceptance by type; the account a transaction registers is not registered yet. -/
inductive TxInputsOk (E : Env) (db : Db) (tx : Transaction) : Prop where
  | transfer (fee : UInt64) : isPqTransfer tx.txType = true → PqInputsOk E.P db tx fee → TxInputsOk E db tx
  | freeReg : tx.txType = txFreeReg → TxInputsOk E db tx
  | coinbase : tx.txType = txCoinbase → TxInputsOk E db tx

theorem TxInputsOk.of_some {E : Env} {db : Db} {tx : Transaction} {v : Option Nat} {m : Option Nat}
    (h : checkTransactionInputs E db tx v = some m) : tx.version = transactionVersion1 ∧ TxInputsOk E db tx := by
  unfold checkTransactionInputs at h
  split at h; · cases h
  rename_i hv
  refine ⟨by simpa using hv, ?_⟩
  split at h; · cases h
  split at h
  · rename_i ht
    split at h; · cases h
    obtain ⟨m', hm, -⟩ := Option.map_eq_some_iff.mp h
    obtain ⟨fee, hok⟩ := PqInputsOk.of_some hm
    exact .transfer fee ht hok
  · split at h
    · exact .freeReg (by assumption)
    · split at h
      · exact .coinbase (by assumption)
      · cases h

end Discrete.L3
