import Discrete.L2Validation.PqValidation

/-!
# Building and recognising outputs (`PqOutputBuilder.cpp`, `PqScan.cpp`)

A sender encapsulates a secret to the recipient's view key and encrypts the
opening `rho` of the spend commitment, together with the route `T`, under a key
derived from that secret and the output's position. A wallet decapsulates and
decrypts every output it sees; what decrypts and commits to one of its spend keys
is its own.

ML-KEM, ML-DSA, HKDF and the AEAD come from libraries: the fields of
`WalletPrimitives`, with `WalletPrimitives.Correct` for what their documentation
promises. Encapsulation takes its random coins as an argument.

* `Owned`: what every recognition path has checked (`scanPqOutput_owned`,
  `scanPqOutputWithLegacyTWindow_owned`, `scanPqOutputAggregate_owned`).
* `tryOwned_built`, `scanPqOutput_built`: a built output is recognised with the
  amount, the opening and the route it was built with.
-/
namespace Discrete.L6
open L1 L2 Codec

abbrev KemPublicKey := Blob pqViewPubSize
abbrev KemSecretKey := Blob 2400
abbrev KemCiphertext := Blob pqKemCiphertextSize
abbrev KemShared := Blob 32
abbrev DsaPublicKey := Blob pqAuthPubSize
abbrev DsaSecretKey := Blob 4032
abbrev Rho := Blob pqRhoSize
abbrev SeedMaster := Blob 32

/-- What the wallet links against besides the node's hashes and verification. The
AEAD's nonce is always zero and left out. -/
structure WalletPrimitives extends Primitives where
  hkdf : (ikm info : Bytes) → Hash
  /-- `hkdf_sha3_256_explicit` with a zero salt and 64 bytes of output. -/
  hkdf64 : (ikm info : Bytes) → Blob 64
  kemKeygen : Blob 64 → KemPublicKey × KemSecretKey
  kemEncaps : KemPublicKey → Blob 32 → KemCiphertext × KemShared
  kemDecaps : KemSecretKey → KemCiphertext → KemShared
  dsaKeygen : Hash → DsaPublicKey × DsaSecretKey
  dsaSign : DsaSecretKey → Bytes → Blob pqSignatureSize
  aeadEncrypt : (key : Hash) → (aad msg : Bytes) → Bytes
  aeadDecrypt : (key : Hash) → (aad ct : Bytes) → Option Bytes

/-- `kAeadTagBytes` -/
def aeadTagBytes : Nat := 16

/-- The documented behaviour of the primitives. -/
structure WalletPrimitives.Correct (W : WalletPrimitives) : Prop where
  sign : ∀ seed msg, W.dsaVerify (W.dsaKeygen seed).1 msg (W.dsaSign (W.dsaKeygen seed).2 msg) = true
  kem : ∀ seed coins, W.kemDecaps (W.kemKeygen seed).2 (W.kemEncaps (W.kemKeygen seed).1 coins).1 =
    (W.kemEncaps (W.kemKeygen seed).1 coins).2
  aead : ∀ key aad msg, W.aeadDecrypt key aad (W.aeadEncrypt key aad msg) = some msg
  aead_length : ∀ key aad msg, (W.aeadEncrypt key aad msg).length = msg.length + aeadTagBytes

/-! ## Keys -/

/-- "discrete-pq-view-root-v1" -/
def kDomainViewRoot : Bytes := domainTag
  ['d', 'i', 's', 'c', 'r', 'e', 't', 'e', '-', 'p', 'q', '-', 'v', 'i', 'e', 'w', '-', 'r', 'o', 'o',
   't', '-', 'v', '1']

/-- "discrete-pq-spend-root-v1" -/
def kDomainSpendRoot : Bytes := domainTag
  ['d', 'i', 's', 'c', 'r', 'e', 't', 'e', '-', 'p', 'q', '-', 's', 'p', 'e', 'n', 'd', '-', 'r', 'o',
   'o', 't', '-', 'v', '1']

/-- "discrete-pq-deposit-spend-v1" -/
def kDomainDepositSpendRoot : Bytes := domainTag
  ['d', 'i', 's', 'c', 'r', 'e', 't', 'e', '-', 'p', 'q', '-', 'd', 'e', 'p', 'o', 's', 'i', 't', '-',
   's', 'p', 'e', 'n', 'd', '-', 'v', '1']

structure PqWalletKeys where
  seedMaster : SeedMaster
  viewPub : KemPublicKey
  viewSk : KemSecretKey
  spendPub : DsaPublicKey
  spendSk : DsaSecretKey
  deriving DecidableEq

/-- mirrors PqSeed.cpp:34-36 -/
def deriveViewKeys (W : WalletPrimitives) (seedMaster : SeedMaster) : KemPublicKey × KemSecretKey :=
  W.kemKeygen (W.hkdf64 seedMaster.val kDomainViewRoot)

/-- mirrors PqSeed.cpp:45-47 -/
def deriveSpendKeys (W : WalletPrimitives) (seedMaster : SeedMaster) : DsaPublicKey × DsaSecretKey :=
  W.dsaKeygen (W.hkdf seedMaster.val kDomainSpendRoot)

/-- mirrors PqSeed.cpp:62-65 -/
def deriveDepositSpendKeys (W : WalletPrimitives) (seedMaster : SeedMaster) (depositIndex : UInt32) :
    DsaPublicKey × DsaSecretKey :=
  W.dsaKeygen (W.hkdf seedMaster.val (kDomainDepositSpendRoot ++ le32 depositIndex))

/-- mirrors PqWallet.cpp:74-87 -/
def derivePqWalletKeys (W : WalletPrimitives) (seedMaster : SeedMaster) : PqWalletKeys where
  seedMaster := seedMaster
  viewPub := (deriveViewKeys W seedMaster).1
  viewSk := (deriveViewKeys W seedMaster).2
  spendPub := (deriveSpendKeys W seedMaster).1
  spendSk := (deriveSpendKeys W seedMaster).2

/-! ## Contexts -/

/-- "discrete-pq-inputs-hash-v1" -/
def kDomainInputsHash : Bytes := domainTag
  ['d', 'i', 's', 'c', 'r', 'e', 't', 'e', '-', 'p', 'q', '-', 'i', 'n', 'p', 'u', 't', 's', '-', 'h',
   'a', 's', 'h', '-', 'v', '1']

/-- "discrete-pq-out-context-v1" -/
def kDomainOutContext : Bytes := domainTag
  ['d', 'i', 's', 'c', 'r', 'e', 't', 'e', '-', 'p', 'q', '-', 'o', 'u', 't', '-', 'c', 'o', 'n', 't',
   'e', 'x', 't', '-', 'v', '1']

/-- "discrete-pq-out-context-v2" -/
def kDomainOutContextV2 : Bytes := domainTag
  ['d', 'i', 's', 'c', 'r', 'e', 't', 'e', '-', 'p', 'q', '-', 'o', 'u', 't', '-', 'c', 'o', 'n', 't',
   'e', 'x', 't', '-', 'v', '2']

/-- "discrete-pq-aead-key-v1" -/
def kDomainAeadKey : Bytes := domainTag
  ['d', 'i', 's', 'c', 'r', 'e', 't', 'e', '-', 'p', 'q', '-', 'a', 'e', 'a', 'd', '-', 'k', 'e', 'y', '-', 'v', '1']

section
variable (W : WalletPrimitives)

/-- A coinbase has no outpoints to hash and takes the zero hash.
mirrors PqTransactionBuilder.cpp:57-79 -/
def pqTransactionInputsHash (tx : TransactionPrefix) : Hash :=
  if tx.pqInputs = [] then nullHash
  else W.sha3_256 (kDomainInputsHash ++ tx.pqInputs.flatMap fun i => i.prevTxid.val ++ le32 i.prevOutIndex)

/-- mirrors PqDerive.cpp:66-76 -/
def outContext (inputsHash : Hash) (kemCt : KemCiphertext) (outputIndex : UInt32) : Hash :=
  W.sha3_256 (kDomainOutContextV2 ++ inputsHash.val ++ kemCt.val ++ le32 outputIndex)

/-- mirrors PqDerive.cpp:78-90 -/
def legacyOutContextV1 (inputsHash : Hash) (kemCt : KemCiphertext) (outputIndex : UInt32)
    (subaddrIndexT : UInt64) : Hash :=
  W.sha3_256 (kDomainOutContext ++ inputsHash.val ++ kemCt.val ++ le32 outputIndex ++ le64 subaddrIndexT)

/-- mirrors PqDerive.cpp:92-98 -/
def deriveAeadKey (ss : KemShared) (outContext : Hash) : Hash :=
  W.hkdf ss.val (kDomainAeadKey ++ outContext.val)

/-! ## Recognition -/

inductive PqScanMode where
  | compatible | strictV2
  deriving DecidableEq

structure PqOwnedOutput where
  outputIndex : UInt32
  amount : UInt64
  subaddrIndexT : UInt64
  rho : Rho
  outContext : Hash
  deriving DecidableEq

structure PqScanKeys where
  viewSk : KemSecretKey
  spendPub : DsaPublicKey

structure PqScanOutput where
  outputIndex : UInt32
  amount : UInt64
  kemCt : KemCiphertext
  encPayload : Bytes
  spendCommit : Hash
  deriving DecidableEq

structure DecryptedPayload where
  rho : Rho
  subaddrIndexT : UInt64

/-- `out_context ‖ LE64(amount)`: the amount on the chain is authenticated. -/
def payloadAad (oc : Hash) (amount : UInt64) : Bytes := oc.val ++ le64 amount

/-- mirrors PqScan.cpp:40-66 -/
def tryDecrypt (ss : KemShared) (oc : Hash) (out : PqScanOutput) : Option DecryptedPayload :=
  match W.aeadDecrypt (deriveAeadKey W ss oc) (payloadAad oc out.amount) out.encPayload with
  | none => none
  | some pt =>
    if pt.length ≠ 40 then none
    else some ⟨toArray _ pt, UInt64.ofNat (leValue (pt.drop 32))⟩

/-- mirrors PqScan.cpp:71-85 -/
def finishOwned (spendPub : DsaPublicKey) (out : PqScanOutput) (dp : DecryptedPayload) (oc : Hash) :
    Option PqOwnedOutput :=
  if spendCommit W.toPrimitives spendPub dp.rho ≠ out.spendCommit then none
  else some ⟨out.outputIndex, out.amount, dp.subaddrIndexT, dp.rho, oc⟩

/-- mirrors PqScan.cpp:91-117 -/
def tryOwned (ss : KemShared) (spendPub : DsaPublicKey) (inputsHash : Hash) (out : PqScanOutput)
    (mode : PqScanMode) : Option PqOwnedOutput :=
  let ocV2 := outContext W inputsHash out.kemCt out.outputIndex
  match (tryDecrypt W ss ocV2 out).bind fun dp => finishOwned W spendPub out dp ocV2 with
  | some owned => some owned
  | none =>
    if mode ≠ .compatible then none
    else
      let ocLegacy := legacyOutContextV1 W inputsHash out.kemCt out.outputIndex 0
      (tryDecrypt W ss ocLegacy out).bind fun dp =>
        if dp.subaddrIndexT = 0 then finishOwned W spendPub out dp ocLegacy else none

/-- One turn of the legacy loop. -/
def tryLegacyT (ss : KemShared) (spendPub : DsaPublicKey) (inputsHash : Hash) (out : PqScanOutput)
    (t : UInt64) : Option PqOwnedOutput :=
  let oc := legacyOutContextV1 W inputsHash out.kemCt out.outputIndex t
  (tryDecrypt W ss oc out).bind fun dp =>
    if dp.subaddrIndexT = t then finishOwned W spendPub out dp oc else none

/-- mirrors PqScan.cpp:119-134 -/
def tryOwnedLegacyTWindow (ss : KemShared) (spendPub : DsaPublicKey) (inputsHash : Hash) (out : PqScanOutput)
    (firstT maxT : UInt64) : Option PqOwnedOutput :=
  (List.range' firstT.toNat (maxT.toNat - firstT.toNat)).findSome? fun t =>
    tryLegacyT W ss spendPub inputsHash out (UInt64.ofNat t)

/-- mirrors PqScan.cpp:138-144 -/
def scanPqOutputWithSharedSecret (sharedSecret : KemShared) (recipientSpendPub : DsaPublicKey)
    (inputsHash : Hash) (out : PqScanOutput) (mode : PqScanMode) : Option PqOwnedOutput :=
  tryOwned W sharedSecret recipientSpendPub inputsHash out mode

/-- mirrors PqScan.cpp:146-156 -/
def scanPqOutput (keys : PqScanKeys) (inputsHash : Hash) (out : PqScanOutput) (mode : PqScanMode) :
    Option PqOwnedOutput :=
  scanPqOutputWithSharedSecret W (W.kemDecaps keys.viewSk out.kemCt) keys.spendPub inputsHash out mode

/-- mirrors PqScan.cpp:158-174 -/
def scanPqOutputWithLegacyTWindow (keys : PqScanKeys) (inputsHash : Hash) (out : PqScanOutput)
    (maxT : UInt64) (mode : PqScanMode) : Option PqOwnedOutput :=
  let ss := W.kemDecaps keys.viewSk out.kemCt
  match tryOwned W ss keys.spendPub inputsHash out mode with
  | some owned => some owned
  | none =>
    if mode ≠ .compatible then none
    else tryOwnedLegacyTWindow W ss keys.spendPub inputsHash out 1 maxT

structure PqAggregateOwned where
  record : PqOwnedOutput
  spendPubIndex : Nat

/-- The decryption of `scanPqOutputAggregate`: version 2, else the legacy context
at `T = 0`. -/
def decryptAggregate (ss : KemShared) (inputsHash : Hash) (out : PqScanOutput) (mode : PqScanMode) :
    Option (DecryptedPayload × Hash) :=
  let oc := outContext W inputsHash out.kemCt out.outputIndex
  match tryDecrypt W ss oc out with
  | some dp => some (dp, oc)
  | none =>
    if mode = .compatible then
      let ocLegacy := legacyOutContextV1 W inputsHash out.kemCt out.outputIndex 0
      (tryDecrypt W ss ocLegacy out).map fun dp => (dp, ocLegacy)
    else none

/-- mirrors PqScan.cpp:191-229 -/
def scanPqOutputAggregate (viewSk : KemSecretKey) (spendPubs : List DsaPublicKey) (inputsHash : Hash)
    (out : PqScanOutput) (mode : PqScanMode) : Option PqAggregateOwned :=
  match decryptAggregate W (W.kemDecaps viewSk out.kemCt) inputsHash out mode with
  | none => none
  | some (dp, oc) =>
    if dp.subaddrIndexT ≠ 0 then none
    else
      (spendPubs.findIdx? fun p => decide (spendCommit W.toPrimitives p dp.rho = out.spendCommit)).map fun i =>
        ⟨⟨out.outputIndex, out.amount, dp.subaddrIndexT, dp.rho, oc⟩, i⟩

/-! ## Building -/

structure PqBuiltOutput where
  kemCt : KemCiphertext
  encPayload : Bytes
  spendCommit : Hash
  outContext : Hash
  rho : Rho

/-- The randomness of one output: the coins of the encapsulation and the opening. -/
structure OutputCoins where
  encaps : Blob 32
  rho : Rho

/-- mirrors PqOutputBuilder.cpp:47-86 -/
def sealPqOutput (kemCt : KemCiphertext) (ss : KemShared) (recipientSpendPub : DsaPublicKey)
    (inputsHash : Hash) (outputIndex : UInt32) (amount : UInt64) (rho : Rho) (subaddrIndexT : UInt64) :
    PqBuiltOutput :=
  let oc := outContext W inputsHash kemCt outputIndex
  { kemCt := kemCt
    encPayload := W.aeadEncrypt (deriveAeadKey W ss oc) (payloadAad oc amount) (rho.val ++ le64 subaddrIndexT)
    spendCommit := spendCommit W.toPrimitives recipientSpendPub rho
    outContext := oc
    rho := rho }

/-- What the recipient sees of a built output. -/
def PqBuiltOutput.onChain (b : PqBuiltOutput) (outputIndex : UInt32) (amount : UInt64) : PqScanOutput :=
  ⟨outputIndex, amount, b.kemCt, b.encPayload, b.spendCommit⟩

/-- `none` is the throw "buildPqOutput: sender self-check failed".
mirrors PqOutputBuilder.cpp:88-124 -/
def buildPqOutput (recipientViewPub : KemPublicKey) (recipientSpendPub : DsaPublicKey) (inputsHash : Hash)
    (outputIndex : UInt32) (amount subaddrIndexT : UInt64) (coins : OutputCoins) : Option PqBuiltOutput :=
  let (kemCt, ss) := W.kemEncaps recipientViewPub coins.encaps
  let output := sealPqOutput W kemCt ss recipientSpendPub inputsHash outputIndex amount coins.rho subaddrIndexT
  match scanPqOutputWithSharedSecret W ss recipientSpendPub inputsHash (output.onChain outputIndex amount)
      .strictV2 with
  | some selfCheck => if selfCheck.subaddrIndexT ≠ subaddrIndexT then none else some output
  | none => none

/-! ## What recognition has checked -/

variable {W}

/-- A recognised output commits to `spendPub` under the opening of its record. -/
structure Owned (W : WalletPrimitives) (spendPub : DsaPublicKey) (out : PqScanOutput) (o : PqOwnedOutput) :
    Prop where
  index : o.outputIndex = out.outputIndex
  amount : o.amount = out.amount
  commit : spendCommit W.toPrimitives spendPub o.rho = out.spendCommit

variable {spendPub : DsaPublicKey} {out : PqScanOutput} {o : PqOwnedOutput}

theorem finishOwned_owned {dp : DecryptedPayload} {oc : Hash} (h : finishOwned W spendPub out dp oc = some o) :
    Owned W spendPub out o := by
  unfold finishOwned at h
  split at h
  · simp at h
  · rename_i hc
    simp only [Option.some.injEq] at h
    subst h
    exact ⟨rfl, rfl, not_not.mp hc⟩

variable {ih : Hash} {mode : PqScanMode}

theorem tryOwned_owned {ss : KemShared} (h : tryOwned W ss spendPub ih out mode = some o) : Owned W spendPub out o := by
  unfold tryOwned at h
  dsimp only at h
  split at h
  · rename_i owned hv2
    simp only [Option.some.injEq] at h
    subst h
    obtain ⟨dp, -, hf⟩ := Option.bind_eq_some_iff.mp hv2
    exact finishOwned_owned hf
  · split at h
    · simp at h
    · obtain ⟨dp, -, hf⟩ := Option.bind_eq_some_iff.mp h
      split at hf
      · exact finishOwned_owned hf
      · simp at hf

variable {keys : PqScanKeys}

theorem scanPqOutput_owned (h : scanPqOutput W keys ih out mode = some o) : Owned W keys.spendPub out o :=
  tryOwned_owned h

theorem scanPqOutputWithLegacyTWindow_owned {maxT : UInt64}
    (h : scanPqOutputWithLegacyTWindow W keys ih out maxT mode = some o) : Owned W keys.spendPub out o := by
  unfold scanPqOutputWithLegacyTWindow at h
  dsimp only at h
  split at h
  · rename_i owned hv2
    simp only [Option.some.injEq] at h
    subst h
    exact tryOwned_owned hv2
  · split at h
    · simp at h
    · obtain ⟨t, -, ht⟩ := List.exists_of_findSome?_eq_some h
      obtain ⟨dp, -, hf⟩ := Option.bind_eq_some_iff.mp ht
      split at hf
      · exact finishOwned_owned hf
      · simp at hf

/-- The deposit family: the key the record names is the one the output commits to. -/
theorem scanPqOutputAggregate_owned {viewSk : KemSecretKey} {spendPubs : List DsaPublicKey} {a : PqAggregateOwned}
    (h : scanPqOutputAggregate W viewSk spendPubs ih out mode = some a) :
    ∃ p, spendPubs[a.spendPubIndex]? = some p ∧ Owned W p out a.record := by
  unfold scanPqOutputAggregate at h
  split at h
  · simp at h
  · rename_i dp oc _
    split at h
    · simp at h
    · obtain ⟨i, hi, rfl⟩ := Option.map_eq_some_iff.mp h
      obtain ⟨hlt, hp, -⟩ := List.findIdx?_eq_some_iff_getElem.mp hi
      exact ⟨spendPubs[i], List.getElem?_eq_getElem hlt, rfl, rfl, of_decide_eq_true hp⟩

/-! ## A built output is recognised -/

/-- The message of a payload is read back as it was written. -/
theorem payload_read (rho : Rho) (t : UInt64) :
    (rho.val ++ le64 t).length = 40 ∧ toArray pqRhoSize (rho.val ++ le64 t) = rho ∧
      UInt64.ofNat (leValue ((rho.val ++ le64 t).drop 32)) = t := by
  refine ⟨by simp [rho.property, pqRhoSize], Subtype.ext (by simp [toArray, ← rho.property]), ?_⟩
  rw [List.drop_left' (by rw [rho.property]; rfl), le64, leValue_leBytes t.toNat_lt, UInt64.ofNat_toNat]

variable (hW : W.Correct)
include hW

theorem tryDecrypt_sealed (kemCt : KemCiphertext) (ss : KemShared) (spendPub : DsaPublicKey)
    (ih : Hash) (i : UInt32) (amount : UInt64) (rho : Rho) (t : UInt64) :
    tryDecrypt W ss (outContext W ih kemCt i)
      ((sealPqOutput W kemCt ss spendPub ih i amount rho t).onChain i amount) = some ⟨rho, t⟩ := by
  obtain ⟨hlen, hrho, ht⟩ := payload_read rho t
  simp only [tryDecrypt, PqBuiltOutput.onChain, sealPqOutput, hW.aead]
  rw [if_neg (by simp [hlen]), hrho, ht]

/-- The recipient recovers what the sender sealed. -/
theorem tryOwned_built (kemCt : KemCiphertext) (ss : KemShared) (spendPub : DsaPublicKey)
    (ih : Hash) (i : UInt32) (amount : UInt64) (rho : Rho) (t : UInt64) (mode : PqScanMode) :
    tryOwned W ss spendPub ih ((sealPqOutput W kemCt ss spendPub ih i amount rho t).onChain i amount) mode =
      some ⟨i, amount, t, rho, outContext W ih kemCt i⟩ := by
  have hdec := tryDecrypt_sealed hW kemCt ss spendPub ih i amount rho t
  have hkem : ((sealPqOutput W kemCt ss spendPub ih i amount rho t).onChain i amount).kemCt = kemCt := rfl
  have hidx : ((sealPqOutput W kemCt ss spendPub ih i amount rho t).onChain i amount).outputIndex = i := rfl
  simp only [tryOwned, hkem, hidx, hdec, Option.bind_some]
  simp [finishOwned, PqBuiltOutput.onChain, sealPqOutput]

/-- The sender's self-check never fails. -/
theorem buildPqOutput_eq (viewPub : KemPublicKey) (spendPub : DsaPublicKey) (ih : Hash)
    (i : UInt32) (amount t : UInt64) (coins : OutputCoins) :
    buildPqOutput W viewPub spendPub ih i amount t coins =
      some (sealPqOutput W (W.kemEncaps viewPub coins.encaps).1 (W.kemEncaps viewPub coins.encaps).2 spendPub
        ih i amount coins.rho t) := by
  simp only [buildPqOutput, scanPqOutputWithSharedSecret, tryOwned_built hW]
  simp

variable {b : PqBuiltOutput}

theorem scanPqOutput_built (seed : SeedMaster) (spendPub : DsaPublicKey) (ih : Hash)
    (i : UInt32) (amount t : UInt64) (coins : OutputCoins) (mode : PqScanMode)
    (h : buildPqOutput W (deriveViewKeys W seed).1 spendPub ih i amount t coins = some b) :
    scanPqOutput W ⟨(deriveViewKeys W seed).2, spendPub⟩ ih (b.onChain i amount) mode =
      some ⟨i, amount, t, coins.rho, b.outContext⟩ := by
  rw [buildPqOutput_eq hW, Option.some.injEq] at h
  subst h
  have hss := hW.kem (W.hkdf64 seed.val kDomainViewRoot) coins.encaps
  simp only [scanPqOutput, scanPqOutputWithSharedSecret, PqBuiltOutput.onChain, sealPqOutput, deriveViewKeys] at hss ⊢
  rw [hss]
  exact tryOwned_built hW _ _ _ _ _ _ _ _ _

omit hW in
/-- The legacy window is not tried on what the plain scan finds. -/
theorem scanPqOutputWithLegacyTWindow_of_scan (h : scanPqOutput W keys ih out mode = some o) (maxT : UInt64) :
    scanPqOutputWithLegacyTWindow W keys ih out maxT mode = some o := by
  rw [scanPqOutput, scanPqOutputWithSharedSecret] at h
  rw [scanPqOutputWithLegacyTWindow, h]

variable {i : UInt32} {amount : UInt64} {coins : OutputCoins}

/-- Another key does not recognise it, if it does not open the commitment and the legacy
context does not decrypt. -/
theorem scanPqOutput_other (seed : SeedMaster) {other : DsaPublicKey}
    {t : UInt64}
    (h : buildPqOutput W (deriveViewKeys W seed).1 spendPub ih i amount t coins = some b)
    (hne : spendCommit W.toPrimitives other coins.rho ≠ spendCommit W.toPrimitives spendPub coins.rho)
    (hlegacy : mode = .compatible → tryDecrypt W (W.kemDecaps (deriveViewKeys W seed).2 b.kemCt)
      (legacyOutContextV1 W ih b.kemCt i 0) (b.onChain i amount) = none) :
    scanPqOutput W ⟨(deriveViewKeys W seed).2, other⟩ ih (b.onChain i amount) mode = none := by
  rw [buildPqOutput_eq hW, Option.some.injEq] at h
  subst h
  have hss := hW.kem (W.hkdf64 seed.val kDomainViewRoot) coins.encaps
  simp only [scanPqOutput, scanPqOutputWithSharedSecret, PqBuiltOutput.onChain, sealPqOutput, deriveViewKeys]
    at hss hlegacy ⊢
  rw [hss] at hlegacy ⊢
  have hdec := tryDecrypt_sealed hW (W.kemEncaps (W.kemKeygen (W.hkdf64 seed.val kDomainViewRoot)).1 coins.encaps).1
    (W.kemEncaps (W.kemKeygen (W.hkdf64 seed.val kDomainViewRoot)).1 coins.encaps).2 spendPub ih i amount coins.rho t
  simp only [PqBuiltOutput.onChain, sealPqOutput] at hdec
  simp only [tryOwned, hdec, Option.bind_some, finishOwned, if_pos hne]
  split
  · rfl
  · rename_i hmode
    rw [hlegacy (not_not.mp hmode), Option.bind_none]

/-- The first key of the family that opens the commitment is found. -/
theorem scanPqOutputAggregate_built (seed : SeedMaster)
    (mode : PqScanMode)
    (h : buildPqOutput W (deriveViewKeys W seed).1 spendPub ih i amount 0 coins = some b)
    {spendPubs : List DsaPublicKey} {k : Nat} (hk : spendPubs[k]? = some spendPub)
    (hfirst : ∀ j < k, ∀ p, spendPubs[j]? = some p →
      spendCommit W.toPrimitives p coins.rho ≠ spendCommit W.toPrimitives spendPub coins.rho) :
    scanPqOutputAggregate W (deriveViewKeys W seed).2 spendPubs ih (b.onChain i amount) mode =
      some ⟨⟨i, amount, 0, coins.rho, b.outContext⟩, k⟩ := by
  rw [buildPqOutput_eq hW, Option.some.injEq] at h
  subst h
  have hss := hW.kem (W.hkdf64 seed.val kDomainViewRoot) coins.encaps
  have hdec := tryDecrypt_sealed hW (W.kemEncaps (W.kemKeygen (W.hkdf64 seed.val kDomainViewRoot)).1 coins.encaps).1
    (W.kemEncaps (W.kemKeygen (W.hkdf64 seed.val kDomainViewRoot)).1 coins.encaps).2 spendPub ih i amount coins.rho 0
  have hfind : (spendPubs.findIdx? fun p => decide (spendCommit W.toPrimitives p coins.rho =
      spendCommit W.toPrimitives spendPub coins.rho)) = some k := by
    obtain ⟨hlt, hget⟩ := List.getElem?_eq_some_iff.mp hk
    refine List.findIdx?_eq_some_iff_getElem.mpr ⟨hlt, by rw [hget]; exact decide_eq_true rfl, fun j hj => ?_⟩
    have hjlt : j < spendPubs.length := by omega
    simpa using hfirst j hj spendPubs[j] (List.getElem?_eq_getElem hjlt)
  simp only [PqBuiltOutput.onChain, sealPqOutput, deriveViewKeys] at hss hdec ⊢
  simp only [scanPqOutputAggregate, decryptAggregate, hss, hdec]
  simp [hfind]

/-- What consensus checks about an output holds of a built one. -/
theorem buildPqOutput_sizes {viewPub : KemPublicKey} {t : UInt64}
    (h : buildPqOutput W viewPub spendPub ih i amount t coins = some b) : b.encPayload.length = pqEncPayloadSize := by
  rw [buildPqOutput_eq hW, Option.some.injEq] at h
  subst h
  simp [sealPqOutput, hW.aead_length, coins.rho.property, pqRhoSize, aeadTagBytes, pqEncPayloadSize]

end

end Discrete.L6
