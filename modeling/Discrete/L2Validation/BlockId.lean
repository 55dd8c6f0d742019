import Discrete.Core.PairTree
import Discrete.L1Encoding.BlockWire
import Discrete.L2Validation.TxGate

/-!
# Block identity and proof of work (`CryptoNoteFormatUtils.cpp`, `tree-hash.c`)

The hashing blob of a block is its header, the root of a tree over the coinbase id and the
transaction hashes, and the number of leaves. The miner signs a digest of the blob, and the
block id commits to the blob and to the signature.

* `getBlockHash_inj`: two decoded blocks with one id are one block, whatever the lengths of
  their transaction lists, unless one of the hash functions collides on the strings that
  were hashed for them.
-/
namespace Discrete.L2
open List L1 Codec

/-- What the block functions link against. `parentBlockBlob` is the serialized parent block
of the merge-mined versions. -/
structure PowPrimitives extends Primitives where
  ySlowHash : Bytes → Option Hash
  shake256 : Bytes → (size : Nat) → Blob size
  yespower : Blob 64 → Hash → Bytes → Option Hash
  parentBlockBlob : Block → Option Bytes

/-! ## Tree hash -/

/-- `cnt |= cnt >> i` -/
def spread (cnt : BitVec 64) (i : Nat) : BitVec 64 := cnt ||| cnt >>> i

/-- The size of the first level of a tree with `count` leaves.
mirrors tree-hash.c:39-43 -/
def treePower (count : Nat) : Nat :=
  let cnt := [1, 2, 4, 8, 16, 32].foldl spread (BitVec.ofNat 64 (count - 1))
  (cnt &&& ~~~(cnt >>> 1)).toNat

/-- `cn_fast_hash` of two hashes that stand side by side. -/
def hashPair (P : Primitives) (a b : Hash) : Hash := P.cnFastHash (a.val ++ b.val)

/-- mirrors tree-hash.c:31-60 -/
def treeHash (P : Primitives) (hashes : List Hash) : Hash :=
  (PairTree.root (hashPair P) (treePower hashes.length) hashes).getD nullHash

/-- mirrors CryptoNoteFormatUtils.cpp:477-486 -/
def txTreeLeaves (P : Primitives) (b : Block) : List Hash :=
  getObjectHash P b.baseTransaction :: b.transactionHashes

def getTxTreeHash (P : Primitives) (b : Block) : Hash := treeHash P (txTreeLeaves P b)

/-! ## Hashing blob and block id -/

/-- mirrors CryptoNoteFormatUtils.cpp:210-221 -/
def getBlockHashingBlob (P : Primitives) (b : Block) : Option Bytes :=
  if (serializeBlockHeader b.toBlockHeader).ok then
    some ((serializeBlockHeader b.toBlockHeader).bytes ++ ((getTxTreeHash P b).val ++
      writeVarint (b.transactionHashes.length + 1)))
  else none

/-- "DiscretePower/v2/" -/
def discretePowerDomain : List Char :=
  ['D', 'i', 's', 'c', 'r', 'e', 't', 'e', 'P', 'o', 'w', 'e', 'r', '/', 'v', '2', '/']

def discretePowerHeaderDomain : Bytes := domainTag (discretePowerDomain ++ ['h', 'e', 'a', 'd', 'e', 'r'])
def discretePowerMemoryDomain : Bytes := domainTag (discretePowerDomain ++ ['m', 'e', 'm', 'o', 'r', 'y'])
def discretePowerSignDomain : Bytes := domainTag (discretePowerDomain ++ ['s', 'i', 'g', 'n'])
def discretePowerFinalDomain : Bytes := domainTag (discretePowerDomain ++ ['f', 'i', 'n', 'a', 'l'])
def discretePowerWitnessDomain : Bytes := domainTag (discretePowerDomain ++ ['w', 'i', 't', 'n', 'e', 's', 's'])
def discretePowerBlockIdDomain : Bytes := domainTag (discretePowerDomain ++ ['b', 'l', 'o', 'c', 'k', '-', 'i', 'd'])

def witnessPreimage (signature : Bytes) : Bytes := discretePowerWitnessDomain ++ signature

/-- mirrors CryptoNoteFormatUtils.cpp:257-266 -/
def getBlockSignatureWitness (Q : PowPrimitives) (signature : Bytes) : Hash :=
  Q.shake256 (witnessPreimage signature) 32

def blockIdPreimage (Q : PowPrimitives) (cB signature : Bytes) : Bytes :=
  discretePowerBlockIdDomain ++ (leBytes 8 cB.length ++ (cB ++ (getBlockSignatureWitness Q signature).val))

/-- mirrors CryptoNoteFormatUtils.cpp:241-253 -/
def discretePowerBlockId (Q : PowPrimitives) (cB signature : Bytes) : Hash :=
  Q.shake256 (blockIdPreimage Q cB signature) 32

def isMergeMined (b : Block) : Bool :=
  decide (b.majorVersion = blockMajorVersion2) || decide (b.majorVersion = blockMajorVersion3)

/-- The unsigned part that the id commits to.
mirrors CryptoNoteFormatUtils.cpp:405-419 -/
def blockIdBlob (Q : PowPrimitives) (b : Block) : Option Bytes := do
  let blob ← getBlockHashingBlob Q.toPrimitives b
  if isMergeMined b then
    let parent ← Q.parentBlockBlob b
    pure (blob ++ parent)
  else pure blob

/-- mirrors CryptoNoteFormatUtils.cpp:405-438 -/
def getBlockHash (Q : PowPrimitives) (b : Block) : Hash :=
  match blockIdBlob Q b with
  | none => nullHash
  | some cB => discretePowerBlockId Q cB b.signature

/-! ## Proof of work -/

/-- mirrors CryptoNoteFormatUtils.cpp:281-289 -/
def discretePowerHeaderFromBlob (Q : PowPrimitives) (blob : Bytes) : Blob 64 :=
  Q.shake256 (discretePowerHeaderDomain ++ blob) 64

/-- mirrors CryptoNoteFormatUtils.cpp:333-341 -/
def discretePowerSignMessage (Q : PowPrimitives) (H : Blob 64) : Blob 64 :=
  Q.shake256 (discretePowerSignDomain ++ H.val) 64

/-- mirrors CryptoNoteFormatUtils.cpp:294-317 -/
def discretePowerMemoryAndFinal (Q : PowPrimitives) (H : Blob 64) (sig : Bytes) : Option Hash :=
  let tape := sig ++ [0x80, 0x00, 0x00]
  (Q.yespower H (Q.shake256 discretePowerMemoryDomain 32) tape).map fun y =>
    Q.shake256 (discretePowerFinalDomain ++ (H.val ++ y.val)) 32

/-- The message that the miner of a blob signs. -/
def powMessage (Q : PowPrimitives) (blob : Bytes) : Bytes :=
  (discretePowerSignMessage Q (discretePowerHeaderFromBlob Q blob)).val

/-- mirrors CryptoNoteFormatUtils.cpp:362-385 -/
def discretePowerVerify (Q : PowPrimitives) (blob : Bytes) (pk : Blob pqAuthPubSize) (signature : Bytes) : Option Hash :=
  if h : signature.length = pqSignatureSize then
    if Q.dsaVerify pk (powMessage Q blob) ⟨signature, h⟩ then
      discretePowerMemoryAndFinal Q (discretePowerHeaderFromBlob Q blob) signature
    else none
  else none

/-- mirrors Blockchain.cpp:876-911 -/
def prevalidateBlockProofOfWork (Q : PowPrimitives) (b : Block) : Option Hash := do
  let blob ← getBlockHashingBlob Q.toPrimitives b
  let spendPub ← getPqMinerSpendPubFromExtra b.baseTransaction.extra
  discretePowerVerify Q blob spendPub b.signature

/-- What the node takes from the functions of this module. -/
def PowPrimitives.nodePrimitives (Q : PowPrimitives) : NodePrimitives where
  toPrimitives := Q.toPrimitives
  ySlowHash := Q.ySlowHash
  getBlockHash := getBlockHash Q
  prevalidateBlockProofOfWork := prevalidateBlockProofOfWork Q

/-! ## The shape of the tree -/

theorem spread_bits {v cnt : BitVec 64} {n : Nat} (h : ∀ j, cnt.getLsbD j = true ↔ ∃ d < n, v.getLsbD (j + d) = true)
    (j : Nat) : (spread cnt n).getLsbD j = true ↔ ∃ d < 2 * n, v.getLsbD (j + d) = true := by
  rw [spread, BitVec.getLsbD_or, BitVec.getLsbD_ushiftRight, Bool.or_eq_true, h, h]
  constructor
  · rintro (⟨d, hd, hbit⟩ | ⟨d, hd, hbit⟩)
    · exact ⟨d, by omega, hbit⟩
    · exact ⟨n + d, by omega, by rwa [← Nat.add_assoc, Nat.add_comm j n]⟩
  · rintro ⟨d, hd, hbit⟩
    by_cases hlt : d < n
    · exact .inl ⟨d, hlt, hbit⟩
    · refine .inr ⟨d - n, by omega, ?_⟩
      rwa [show n + j + (d - n) = j + d by omega]

/-- The loop leaves the highest bit of `count - 1`. -/
theorem treePower_eq {c : Nat} (hpos : 0 < c) (hlt : c < 2 ^ 64) : treePower (c + 1) = 2 ^ Nat.log2 c := by
  have h1 : ∀ j, (BitVec.ofNat 64 c).getLsbD j = true ↔ ∃ d < 1, (BitVec.ofNat 64 c).getLsbD (j + d) = true := by
    intro j
    simp
  have h64 := spread_bits (spread_bits (spread_bits (spread_bits (spread_bits (spread_bits h1)))))
  have hlog : Nat.log2 c < 64 := (Nat.log2_lt (by omega)).mpr hlt
  have hbits : ∀ j, ([1, 2, 4, 8, 16, 32].foldl spread (BitVec.ofNat 64 c)).getLsbD j = true ↔ j ≤ Nat.log2 c := by
    intro j
    refine (h64 j).trans ⟨?_, ?_⟩
    · rintro ⟨d, -, hbit⟩
      rw [BitVec.getLsbD_ofNat, Bool.and_eq_true] at hbit
      have hle := Nat.ge_two_pow_of_testBit hbit.2
      have := (Nat.le_log2 (by omega)).mpr hle
      omega
    · intro hj
      refine ⟨Nat.log2 c - j, by omega, ?_⟩
      rw [show j + (Nat.log2 c - j) = Nat.log2 c by omega, BitVec.getLsbD_ofNat, Bool.and_eq_true]
      exact ⟨by simpa using hlog, Nat.testBit_log2 (by omega)⟩
  unfold treePower
  rw [Nat.add_sub_cancel]
  dsimp only
  generalize [1, 2, 4, 8, 16, 32].foldl spread (BitVec.ofNat 64 c) = cnt at hbits ⊢
  refine Nat.eq_of_testBit_eq fun j => ?_
  have hj := hbits j
  have hj' := hbits (1 + j)
  rw [BitVec.testBit_toNat, BitVec.getLsbD_and, BitVec.getLsbD_not, BitVec.getLsbD_ushiftRight, Nat.testBit_two_pow,
    Bool.eq_iff_iff, Bool.and_eq_true, Bool.and_eq_true, hj, Bool.not_eq_true', ← Bool.not_eq_true, hj',
    decide_eq_true_eq, decide_eq_true_eq]
  omega

theorem treePower_fits {count : Nat} (hcount : 2 < count) (hlt : count < 2 ^ 64) :
    PairTree.Fits (treePower count) count := by
  obtain ⟨c, rfl⟩ : ∃ c, count = c + 1 := ⟨count - 1, by omega⟩
  have hlog : 1 ≤ Nat.log2 c := (Nat.le_log2 (by omega)).mpr (by omega)
  refine ⟨Nat.log2 c - 1, ?_, ?_, ?_⟩
  · rw [treePower_eq (by omega) (by omega), Nat.sub_add_cancel hlog]
  · rw [Nat.sub_add_cancel hlog]
    have := Nat.log2_self_le (n := c) (by omega)
    omega
  · rw [Nat.sub_add_cancel hlog]
    have := Nat.lt_log2_self (n := c)
    rw [Nat.pow_succ] at this
    omega

/-! ## Equal ids -/

/-- What `cn_fast_hash` is applied to for a block. -/
def fastPreimages (P : Primitives) (b : Block) : List Bytes :=
  toBinaryArray b.baseTransaction ::
    (PairTree.rootPairs (hashPair P) (treePower (txTreeLeaves P b).length) (txTreeLeaves P b)).map fun p =>
      p.1.val ++ p.2.val

/-- What SHAKE256 is applied to for the id of a block. -/
def shakePreimages (Q : PowPrimitives) (b : Block) : List Bytes :=
  witnessPreimage b.signature :: (blockIdBlob Q b).toList.map fun cB => blockIdPreimage Q cB b.signature

/-- A function without collisions on the strings of two lists. -/
def CollisionFree (f : Bytes → Hash) (l l' : List Bytes) : Prop := Set.InjOn f {x | x ∈ l ∨ x ∈ l'}

theorem collisionFree_iff {f : Bytes → Hash} {l l' : List Bytes} :
    CollisionFree f l l' ↔ ∀ x ∈ l ++ l', ∀ y ∈ l ++ l', f x = f y → x = y := by
  simp only [mem_append]
  exact ⟨fun h x hx y hy e => h hx hy e, fun h x hx y hy e => h x hx y hy e⟩

theorem hashPair_injOn {P : Primitives} {l l' : List Bytes} (h : CollisionFree P.cnFastHash l l') :
    Set.InjOn (fun p : Hash × Hash => hashPair P p.1 p.2)
      {p | p.1.val ++ p.2.val ∈ l ∨ p.1.val ++ p.2.val ∈ l'} := by
  intro p hp q hq e
  have hbytes := h hp hq e
  obtain ⟨hfst, hsnd⟩ := blob_delimited _ trivial trivial hbytes
  exact Prod.ext hfst (Subtype.val_injective hsnd)

theorem treeHash_root {P : Primitives} {hashes : List Hash} (hne : hashes ≠ []) (hlt : hashes.length < 2 ^ 64) :
    PairTree.root (hashPair P) (treePower hashes.length) hashes = some (treeHash P hashes) := by
  have hsome := PairTree.root_isSome (hashPair P) hne fun h2 => treePower_fits h2 hlt
  obtain ⟨r, hr⟩ := Option.isSome_iff_exists.mp hsome
  rw [treeHash, hr]
  rfl

/-- With the number of leaves given, the root determines them. -/
theorem treeHash_inj {P : Primitives} {S : Set (Hash × Hash)} {hashes hashes' : List Hash}
    (hS : Set.InjOn (fun p : Hash × Hash => hashPair P p.1 p.2) S) (hlen : hashes.length = hashes'.length)
    (hne : hashes ≠ []) (hlt : hashes.length < 2 ^ 64)
    (hp : ∀ p ∈ PairTree.rootPairs (hashPair P) (treePower hashes.length) hashes, p ∈ S)
    (hp' : ∀ p ∈ PairTree.rootPairs (hashPair P) (treePower hashes'.length) hashes', p ∈ S)
    (h : treeHash P hashes = treeHash P hashes') : hashes = hashes' := by
  have hroot := treeHash_root (P := P) hne hlt
  have hne' : hashes' ≠ [] := length_pos_iff.mp (hlen ▸ length_pos_iff.mpr hne)
  have hroot' := treeHash_root (P := P) hne' (hlen ▸ hlt)
  rw [← h, ← hlen] at hroot'
  rw [← hlen] at hp'
  exact PairTree.root_inj (hashPair P) hS hlen (fun h2 => treePower_fits h2 hlt) hp hp' hroot hroot'

theorem getTxTreeHash_inj {P : Primitives} {b b' : Block}
    (hfast : CollisionFree P.cnFastHash (fastPreimages P b) (fastPreimages P b'))
    (hlen : b.transactionHashes.length = b'.transactionHashes.length) (hlt : b.transactionHashes.length + 1 < 2 ^ 64)
    (h : getTxTreeHash P b = getTxTreeHash P b') : txTreeLeaves P b = txTreeLeaves P b' := by
  have hleaves : (txTreeLeaves P b).length = (txTreeLeaves P b').length := by
    rw [txTreeLeaves, txTreeLeaves, length_cons, length_cons, hlen]
  have hmem : ∀ {c : Block}, ∀ p ∈ PairTree.rootPairs (hashPair P) (treePower (txTreeLeaves P c).length)
      (txTreeLeaves P c), p.1.val ++ p.2.val ∈ fastPreimages P c := fun p hp =>
    mem_cons_of_mem _ (List.mem_map_of_mem (f := fun p : Hash × Hash => p.1.val ++ p.2.val) hp)
  exact treeHash_inj (hashPair_injOn hfast) hleaves (cons_ne_nil _ _) hlt (fun p hp => .inl (hmem p hp))
    (fun p hp => .inr (hmem p hp)) h

theorem blockIdBlob_decoded {Q : PowPrimitives} {b : Block} (h : Decoded b) (hv : isMergeMined b = false) :
    blockIdBlob Q b = some ((serializeBlockHeader b.toBlockHeader).bytes ++ ((getTxTreeHash Q.toPrimitives b).val ++
      writeVarint (b.transactionHashes.length + 1))) := by
  rw [blockIdBlob, getBlockHashingBlob, if_pos h.parts.1, Option.bind_eq_bind, Option.bind_some, if_neg (by simp [hv])]
  rfl

/-- The id commits to the unsigned blob and to the signature. -/
theorem discretePowerBlockId_inj {Q : PowPrimitives} {cB cB' sig sig' : Bytes} {l l' : List Bytes}
    (hshake : CollisionFree (Q.shake256 · 32) l l') (hw : witnessPreimage sig ∈ l) (hw' : witnessPreimage sig' ∈ l')
    (hb : blockIdPreimage Q cB sig ∈ l) (hb' : blockIdPreimage Q cB' sig' ∈ l')
    (h : discretePowerBlockId Q cB sig = discretePowerBlockId Q cB' sig') : cB = cB' ∧ sig = sig' := by
  have hpre := hshake (.inl hb) (.inr hb') h
  unfold blockIdPreimage at hpre
  have hrest := (append_inj (append_cancel_left hpre) (by simp)).2
  have hlen : cB.length = cB'.length := by
    have := congrArg List.length hrest
    simp only [length_append, (getBlockSignatureWitness Q sig).property,
      (getBlockSignatureWitness Q sig').property] at this
    omega
  obtain ⟨hcB, hwitness⟩ := append_inj hrest hlen
  have hsig := hshake (.inl hw) (.inr hw') (Subtype.val_injective hwitness)
  exact ⟨hcB, append_cancel_left hsig⟩

/-- A coinbase that came from the wire is determined by its id. -/
theorem coinbase_inj {P : Primitives} {b b' : Block} (hb : Decoded b) (hb' : Decoded b')
    (hfast : CollisionFree P.cnFastHash (fastPreimages P b) (fastPreimages P b'))
    (h : getObjectHash P b.baseTransaction = getObjectHash P b'.baseTransaction) :
    b.baseTransaction = b'.baseTransaction := by
  rw [getObjectHash, getObjectHash, if_pos hb.parts.2.2, if_pos hb'.parts.2.2] at h
  have hbytes := hfast (.inl mem_cons_self) (.inr mem_cons_self) h
  have hread := fromBinaryArray_toBinaryArray hb.coinbase
  have hread' := fromBinaryArray_toBinaryArray hb'.coinbase
  rw [hbytes, hread'] at hread
  exact (Option.some.inj hread).symm

/-- Two blocks from the wire have the same id exactly when they are the same block. -/
theorem getBlockHash_inj {Q : PowPrimitives} {s s' : Bytes} {b b' : Block} (hs : s.length < 2 ^ 64) (hs' : s'.length < 2 ^ 64)
    (h : blockFromBinaryArray s = some b) (h' : blockFromBinaryArray s' = some b')
    (hv : isMergeMined b = false) (hv' : isMergeMined b' = false)
    (hfast : CollisionFree Q.cnFastHash (fastPreimages Q.toPrimitives b) (fastPreimages Q.toPrimitives b'))
    (hshake : CollisionFree (Q.shake256 · 32) (shakePreimages Q b) (shakePreimages Q b')) :
    getBlockHash Q b = getBlockHash Q b' ↔ b = b' := by
  refine ⟨fun hid => ?_, fun hid => by rw [hid]⟩
  have hb := (Decoded.of_some h).1
  have hb' := (Decoded.of_some h').1
  have hlt : b.transactionHashes.length + 1 < 2 ^ 64 := by
    have := Decoded.length_le h
    omega
  have hlt' : b'.transactionHashes.length + 1 < 2 ^ 64 := by
    have := Decoded.length_le h'
    omega
  have hblob := blockIdBlob_decoded (Q := Q) hb hv
  have hblob' := blockIdBlob_decoded (Q := Q) hb' hv'
  rw [getBlockHash, getBlockHash, hblob, hblob'] at hid
  rw [shakePreimages, shakePreimages, hblob, hblob'] at hshake
  obtain ⟨hcB, hsig⟩ := discretePowerBlockId_inj hshake mem_cons_self mem_cons_self
    (mem_cons_of_mem _ mem_cons_self) (mem_cons_of_mem _ mem_cons_self) hid
  -- the blob parses one way: header, root, number of leaves
  obtain ⟨hheader, hcB⟩ := serializeBlockHeader_delimited hb.parts.1 hb'.parts.1 hcB
  obtain ⟨hroot, hcount⟩ := blob_delimited _ trivial trivial hcB
  have hlen : b.transactionHashes.length = b'.transactionHashes.length := by
    have := (readVarint_inverts (Nat.le_refl 64)).delimited.inj hlt hlt' hcount
    omega
  have hleaves := getTxTreeHash_inj hfast hlen hlt hroot
  obtain ⟨hcoinbase, hhashes⟩ := List.cons.inj hleaves
  have hbase := coinbase_inj hb hb' hfast hcoinbase
  cases b
  cases b'
  simp only [Block.mk.injEq]
  exact ⟨hheader, hbase, hsig, hhashes⟩

/-- A polynomial in all bytes. -/
def sumHash (bs : Bytes) : Hash :=
  ⟨leBytes 32 (bs.foldl (fun acc b => (acc * 257 + b.toNat + 1) % (2 ^ 256 - 189)) bs.length), leBytes_length 32 _⟩

def sumPow : PowPrimitives where
  sha3_256 := sumHash
  cnFastHash := sumHash
  dsaVerify := fun _ _ _ => true
  ySlowHash := fun _ => some nullHash
  shake256 := fun bs size => ⟨leBytes size (leValue (sumHash bs).val), leBytes_length _ _⟩
  yespower := fun _ _ _ => some nullHash
  parentBlockBlob := fun _ => none

def sumBlock (hashes : List Hash) : Block where
  majorVersion := 1
  minorVersion := 0
  nonce := 7
  timestamp := 90
  previousBlockHash := nullHash
  baseTransaction := ⟨⟨1, txCoinbase, 11, [.base ⟨1⟩], [⟨1000, 11, .coinbase ⟨nullHash⟩⟩], []⟩, []⟩
  signature := List.replicate pqSignatureSize 0
  transactionHashes := hashes

/-- Three leaves and four. -/
theorem getBlockHash_inj_sumBlock :
    getBlockHash sumPow (sumBlock [nullHash, nullHash]) ≠ getBlockHash sumPow (sumBlock [nullHash, nullHash, nullHash]) := by
  have hlen : ∀ n, n ≤ 3 → (serializeBlock (sumBlock (List.replicate n nullHash))).bytes.length < 2 ^ 64 := by
    decide +kernel
  have hread : ∀ n, n ≤ 3 → blockFromBinaryArray (serializeBlock (sumBlock (List.replicate n nullHash))).bytes =
      some (sumBlock (List.replicate n nullHash)) := by
    decide +kernel
  have hfast : ∀ x ∈ fastPreimages sumPow.toPrimitives (sumBlock (List.replicate 2 nullHash)) ++
        fastPreimages sumPow.toPrimitives (sumBlock (List.replicate 3 nullHash)),
      ∀ y ∈ fastPreimages sumPow.toPrimitives (sumBlock (List.replicate 2 nullHash)) ++
        fastPreimages sumPow.toPrimitives (sumBlock (List.replicate 3 nullHash)),
      sumPow.cnFastHash x = sumPow.cnFastHash y → x = y := by
    decide +kernel
  have hshake : ∀ x ∈ shakePreimages sumPow (sumBlock (List.replicate 2 nullHash)) ++
        shakePreimages sumPow (sumBlock (List.replicate 3 nullHash)),
      ∀ y ∈ shakePreimages sumPow (sumBlock (List.replicate 2 nullHash)) ++
        shakePreimages sumPow (sumBlock (List.replicate 3 nullHash)),
      sumPow.shake256 x 32 = sumPow.shake256 y 32 → x = y := by
    decide +kernel
  intro hid
  have hsame := (getBlockHash_inj (Q := sumPow) (hlen 2 (by decide)) (hlen 3 (by decide)) (hread 2 (by decide)) (hread 3 (by decide))
    (by decide) (by decide) (collisionFree_iff.mpr hfast) (collisionFree_iff.mpr hshake)).mp hid
  have hcount := congrArg (fun b : Block => b.transactionHashes.length) hsame
  exact absurd hcount (by decide)

end Discrete.L2
