import Discrete.L1Encoding.TxWire

/-!
# Derived hashes and the signing transcript (`PqDerive.cpp`)

The byte strings that are hashed into spend commitments, nullifiers and signing
digests. The hash functions and ML-DSA themselves come from liboqs and
`hash.c`; here they are the fields of `Primitives`.

Transcript version 1 is `domain ‖ body`; version 2 is
`domain ‖ chainId ‖ body ‖ keyRef₀ ‖ … ‖ keyRefₙ₋₁ ‖ inputIndex`. The body has
counts and lengths in front of everything of variable size, and the key
references at the end are as many as the inputs the body lists, so the whole
string parses one way only (`txSigningPreimageV2_inj`).
-/
namespace Discrete.L2
open List L1 Codec

/-- The hash functions and signature scheme the node links against. -/
structure Primitives where
  sha3_256 : Bytes → Hash
  cnFastHash : Bytes → Hash
  dsaVerify : Blob pqAuthPubSize → Bytes → Blob pqSignatureSize → Bool

/-- A domain tag without its terminating NUL. -/
def domainTag (cs : List Char) : Bytes := cs.map fun c => UInt8.ofNat c.toNat

/-- "discrete-pq-spend-commit-v1" -/
def kDomainSpendCommit : Bytes := domainTag
  ['d', 'i', 's', 'c', 'r', 'e', 't', 'e', '-', 'p', 'q', '-', 's', 'p', 'e', 'n', 'd', '-', 'c', 'o',
   'm', 'm', 'i', 't', '-', 'v', '1']

/-- "discrete-pq-nullifier-v1" -/
def kDomainNullifier : Bytes := domainTag
  ['d', 'i', 's', 'c', 'r', 'e', 't', 'e', '-', 'p', 'q', '-', 'n', 'u', 'l', 'l', 'i', 'f', 'i', 'e',
   'r', '-', 'v', '1']

/-- "discrete-pq-tx-sign-v1" -/
def kDomainTxSign : Bytes := domainTag
  ['d', 'i', 's', 'c', 'r', 'e', 't', 'e', '-', 'p', 'q', '-', 't', 'x', '-', 's', 'i', 'g', 'n', '-', 'v', '1']

/-- "discrete-pq-tx-sign-v2" -/
def kDomainTxSignV2 : Bytes := domainTag
  ['d', 'i', 's', 'c', 'r', 'e', 't', 'e', '-', 'p', 'q', '-', 't', 'x', '-', 's', 'i', 'g', 'n', '-', 'v', '2']

/-- `appendLe32` -/
def le32 (v : UInt32) : Bytes := leBytes 4 v.toNat

/-- `appendLe64` -/
def le64 (v : UInt64) : Bytes := leBytes 8 v.toNat

@[simp] theorem le32_length (v : UInt32) : (le32 v).length = 4 := leBytes_length 4 _
@[simp] theorem le64_length (v : UInt64) : (le64 v).length = 8 := leBytes_length 8 _

theorem le32_delimited : Delimited (fun _ => True) le32 := by
  intro a b _ _ r r' e
  obtain ⟨h, hr⟩ := leBytes_delimited 4 a.toNat_lt b.toNat_lt e
  exact ⟨UInt32.toNat_inj.mp h, hr⟩

theorem le64_delimited : Delimited (fun _ => True) le64 := by
  intro a b _ _ r r' e
  obtain ⟨h, hr⟩ := leBytes_delimited 8 a.toNat_lt b.toNat_lt e
  exact ⟨UInt64.toNat_inj.mp h, hr⟩

/-! ## Commitments and nullifiers -/

def spendCommitPreimage (spendPub : Blob pqAuthPubSize) (rho : Blob pqRhoSize) : Bytes :=
  kDomainSpendCommit ++ spendPub.val ++ rho.val

/-- mirrors PqDerive.cpp:100-107 -/
def spendCommit (P : Primitives) (spendPub : Blob pqAuthPubSize) (rho : Blob pqRhoSize) : Hash :=
  P.sha3_256 (spendCommitPreimage spendPub rho)

def nullifierPreimage (spendPub : Blob pqAuthPubSize) (rho : Blob pqRhoSize) (prevTxid : Hash)
    (prevOutIndex : UInt32) : Bytes :=
  kDomainNullifier ++ spendPub.val ++ rho.val ++ prevTxid.val ++ le32 prevOutIndex

/-- mirrors PqDerive.cpp:109-119 -/
def nullifier (P : Primitives) (spendPub : Blob pqAuthPubSize) (rho : Blob pqRhoSize) (prevTxid : Hash)
    (prevOutIndex : UInt32) : Hash :=
  P.sha3_256 (nullifierPreimage spendPub rho prevTxid prevOutIndex)

/-! ## Transcript -/

structure DigestInput where
  prevTxid : Hash
  prevOutIndex : UInt32
  authPub : Blob pqAuthPubSize
  rhoReveal : Blob pqRhoSize
  keyRef : UInt32
  deriving DecidableEq

structure DigestOutput where
  type : UInt8
  amount : UInt64
  unlockHeight : UInt64
  kemCt : Blob pqKemCiphertextSize
  encPayload : Blob pqEncPayloadSize
  spendCommit : Hash
  deriving DecidableEq

structure UnsignedTx where
  version : UInt8
  txType : UInt8
  unlockHeight : UInt64
  inputs : List DigestInput
  outputs : List DigestOutput
  extra : Bytes
  fee : UInt64
  deriving DecidableEq

def digestInputBytes (i : DigestInput) : Bytes :=
  i.prevTxid.val ++ (le32 i.prevOutIndex ++ (i.authPub.val ++ i.rhoReveal.val))

def digestOutputBytes (o : DigestOutput) : Bytes :=
  o.type :: (le64 o.amount ++ (le64 o.unlockHeight ++ (o.kemCt.val ++ (o.encPayload.val ++ o.spendCommit.val))))

/-- The counts are `static_cast<uint32_t>(size)`: `leBytes 4` drops the high bits.
mirrors PqDerive.cpp:138-162 -/
def appendUnsignedTxBody (tx : UnsignedTx) : Bytes :=
  tx.version :: tx.txType :: (le64 tx.unlockHeight ++ (leBytes 4 tx.inputs.length ++
    (tx.inputs.flatMap digestInputBytes ++ (leBytes 4 tx.outputs.length ++
      (tx.outputs.flatMap digestOutputBytes ++ (leBytes 4 tx.extra.length ++ (tx.extra ++ le64 tx.fee)))))))

/-- What `txSigningDigest` hashes.
mirrors PqDerive.cpp:166-171 -/
def txSigningPreimage (tx : UnsignedTx) : Bytes := kDomainTxSign ++ appendUnsignedTxBody tx

/-- mirrors PqDerive.cpp:176-185 -/
def txSigningPrefixV2 (tx : UnsignedTx) (chainId : Hash) : Bytes :=
  kDomainTxSignV2 ++ (chainId.val ++ (appendUnsignedTxBody tx ++ tx.inputs.flatMap fun i => le32 i.keyRef))

/-- What `txSigningDigestV2` hashes.
mirrors PqDerive.cpp:189-194 -/
def txSigningPreimageV2 (tx : UnsignedTx) (chainId : Hash) (inputIndex : UInt32) : Bytes :=
  txSigningPrefixV2 tx chainId ++ le32 inputIndex

def txSigningDigest (P : Primitives) (tx : UnsignedTx) : Hash := P.sha3_256 (txSigningPreimage tx)

def txSigningDigestV2 (P : Primitives) (tx : UnsignedTx) (chainId : Hash) (inputIndex : UInt32) : Hash :=
  P.sha3_256 (txSigningPreimageV2 tx chainId inputIndex)

/-- The incremental SHA3 state is cloned after the shared prefix, which gives the
digests of the whole strings.
mirrors PqDerive.cpp:196-222 -/
def txSigningDigestsV2 (P : Primitives) (tx : UnsignedTx) (chainId : Hash) (inputIndices : List UInt32) :
    List Hash :=
  inputIndices.map (txSigningDigestV2 P tx chainId)

/-! ## Injectivity -/

theorem spendCommitPreimage_inj {a a' : Blob pqAuthPubSize} {r r' : Blob pqRhoSize}
    (h : spendCommitPreimage a r = spendCommitPreimage a' r') : a = a' ∧ r = r' := by
  simp only [spendCommitPreimage, append_assoc, append_cancel_left_eq] at h
  obtain ⟨ha, h⟩ := blob_delimited _ trivial trivial h
  exact ⟨ha, (blob_delimited _).inj trivial trivial h⟩

theorem nullifierPreimage_inj {a a' : Blob pqAuthPubSize} {r r' : Blob pqRhoSize} {t t' : Hash} {i i' : UInt32}
    (h : nullifierPreimage a r t i = nullifierPreimage a' r' t' i') : a = a' ∧ r = r' ∧ t = t' ∧ i = i' := by
  simp only [nullifierPreimage, append_assoc, append_cancel_left_eq] at h
  obtain ⟨ha, h⟩ := blob_delimited _ trivial trivial h
  obtain ⟨hr, h⟩ := blob_delimited _ trivial trivial h
  obtain ⟨ht, h⟩ := blob_delimited _ trivial trivial h
  exact ⟨ha, hr, ht, le32_delimited.inj trivial trivial h⟩

/-- The part of an input that the body lists (the key reference comes later). -/
def DigestInput.body (i : DigestInput) : Hash × UInt32 × Blob pqAuthPubSize × Blob pqRhoSize :=
  (i.prevTxid, i.prevOutIndex, i.authPub, i.rhoReveal)

def bodyBytes (b : Hash × UInt32 × Blob pqAuthPubSize × Blob pqRhoSize) : Bytes :=
  b.1.val ++ (le32 b.2.1 ++ (b.2.2.1.val ++ b.2.2.2.val))

theorem bodyBytes_delimited : Delimited (fun _ => True) bodyBytes := by
  rintro ⟨t, i, a, r⟩ ⟨t', i', a', r'⟩ _ _ s s' h
  simp only [bodyBytes, append_assoc] at h
  obtain ⟨ht, h⟩ := blob_delimited _ trivial trivial h
  obtain ⟨hi, h⟩ := le32_delimited trivial trivial h
  obtain ⟨ha, h⟩ := blob_delimited _ trivial trivial h
  obtain ⟨hr, h⟩ := blob_delimited _ trivial trivial h
  exact ⟨by rw [ht, hi, ha, hr], h⟩

theorem digestOutputBytes_delimited : Delimited (fun _ => True) digestOutputBytes := by
  rintro ⟨t, a, u, k, e, c⟩ ⟨t', a', u', k', e', c'⟩ _ _ s s' h
  simp only [digestOutputBytes, append_assoc, cons_append, List.cons.injEq] at h
  obtain ⟨ht, h⟩ := h
  obtain ⟨ha, h⟩ := le64_delimited trivial trivial h
  obtain ⟨hu, h⟩ := le64_delimited trivial trivial h
  obtain ⟨hk, h⟩ := blob_delimited _ trivial trivial h
  obtain ⟨he, h⟩ := blob_delimited _ trivial trivial h
  obtain ⟨hc, h⟩ := blob_delimited _ trivial trivial h
  exact ⟨by rw [ht, ha, hu, hk, he, hc], h⟩

/-- The sizes the transcript writes fit its 32-bit counts. -/
structure UnsignedTx.Sized (tx : UnsignedTx) : Prop where
  inputs : tx.inputs.length < 256 ^ 4
  outputs : tx.outputs.length < 256 ^ 4
  extra : tx.extra.length < 256 ^ 4

/-- The body, with anything behind it, determines every field it lists. -/
theorem body_split {tx tx' : UnsignedTx} (hs : tx.Sized) (hs' : tx'.Sized) {r r' : Bytes}
    (h : appendUnsignedTxBody tx ++ r = appendUnsignedTxBody tx' ++ r') :
    tx.version = tx'.version ∧ tx.txType = tx'.txType ∧ tx.unlockHeight = tx'.unlockHeight ∧
      tx.inputs.map DigestInput.body = tx'.inputs.map DigestInput.body ∧ tx.outputs = tx'.outputs ∧
      tx.extra = tx'.extra ∧ tx.fee = tx'.fee ∧ r = r' := by
  have hin : ∀ l : List DigestInput, l.flatMap digestInputBytes = (l.map DigestInput.body).flatMap bodyBytes := by
    intro l
    rw [flatMap_map]
    rfl
  simp only [appendUnsignedTxBody, cons_append, append_assoc, List.cons.injEq, hin] at h
  obtain ⟨hv, ht, h⟩ := h
  obtain ⟨hu, h⟩ := le64_delimited trivial trivial h
  obtain ⟨hni, h⟩ := leBytes_delimited 4 hs.inputs hs'.inputs h
  obtain ⟨hi, h⟩ := bodyBytes_delimited.flatMap (by simpa using hni) (fun _ _ => trivial)
    (fun _ _ => trivial) h
  obtain ⟨hno, h⟩ := leBytes_delimited 4 hs.outputs hs'.outputs h
  obtain ⟨ho, h⟩ := digestOutputBytes_delimited.flatMap hno (fun _ _ => trivial) (fun _ _ => trivial) h
  obtain ⟨hne, h⟩ := leBytes_delimited 4 hs.extra hs'.extra h
  obtain ⟨he, h⟩ := append_inj h hne
  obtain ⟨hf, h⟩ := le64_delimited trivial trivial h
  exact ⟨hv, ht, hu, hi, ho, he, hf, h⟩

theorem inputs_ext : ∀ {l l' : List DigestInput}, l.map DigestInput.body = l'.map DigestInput.body →
    l.map DigestInput.keyRef = l'.map DigestInput.keyRef → l = l'
  | [], [], _, _ => rfl
  | a :: l, b :: l', h, h' => by
    simp only [map_cons, List.cons.injEq] at h h'
    rw [inputs_ext h.2 h'.2]
    cases a; cases b
    simp only [DigestInput.body, Prod.mk.injEq] at h
    simp_all
  | [], b :: l', h, _ => by simp at h
  | a :: l, [], h, _ => by simp at h

/-- The version-2 string determines the chain, the signing input and the whole
unsigned transaction. -/
theorem txSigningPreimageV2_inj {tx tx' : UnsignedTx} (hs : tx.Sized) (hs' : tx'.Sized) {c c' : Hash} {i i' : UInt32}
    (h : txSigningPreimageV2 tx c i = txSigningPreimageV2 tx' c' i') : c = c' ∧ i = i' ∧ tx = tx' := by
  have hrefs : ∀ l : List DigestInput, (l.flatMap fun i => le32 i.keyRef) =
      (l.map DigestInput.keyRef).flatMap le32 := by
    intro l
    rw [flatMap_map]
  simp only [txSigningPreimageV2, txSigningPrefixV2, append_assoc, append_cancel_left_eq, hrefs] at h
  obtain ⟨hc, h⟩ := blob_delimited _ trivial trivial h
  obtain ⟨hv, ht, hu, hi, ho, he, hf, h⟩ := body_split hs hs' h
  have hlen : tx.inputs.length = tx'.inputs.length := by
    simpa using congrArg List.length hi
  obtain ⟨hk, h⟩ := le32_delimited.flatMap (by simpa using hlen) (fun _ _ => trivial)
    (fun _ _ => trivial) h
  refine ⟨hc, le32_delimited.inj trivial trivial h, ?_⟩
  cases tx; cases tx'
  simp only at hv ht hu hi ho he hf hk
  rw [inputs_ext hi hk, hv, ht, hu, ho, he, hf]

/-- The two domain tags differ in their last byte, so no string is a transcript
of both versions. -/
theorem txSigningPreimage_ne_V2 (tx tx' : UnsignedTx) (c : Hash) (i : UInt32) :
    txSigningPreimage tx ≠ txSigningPreimageV2 tx' c i := by
  intro h
  simp only [txSigningPreimage, txSigningPreimageV2, txSigningPrefixV2, append_assoc] at h
  have := (append_inj h (by decide)).1
  revert this
  decide

end Discrete.L2
