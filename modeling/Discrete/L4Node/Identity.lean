import Discrete.L2Validation.BlockId
import Discrete.L3Ledger.Spends
import Discrete.L4Node.Invariant

/-!
# The identity of a miner

A block of the main chain names its miner's key once, in the extra of its coinbase
(CryptoNoteFormatUtils.cpp), and the node reads it there twice: the proof
of work verifies the block's signature under it (`prevalidateBlockProofOfWork`), and
`validateBlockSignature` compares the commitment of the coinbase output with it. A spend is
checked a third time, against the commitment alone (`checkPqTransactionInputs`).

`Signed` is what the first two checks leave behind. `Pushed.signed` gets it from one push,
`Built.signed` for every block of a chain, however the block got there; a block that was
prevalidated brings a hash that the same function computed. `mined_identity` adds the third.
-/
namespace Discrete.L3
open L1 L2 Codec

/-! ## What a push checks -/

/-- A block at `height` that was checked against the key it names: the work has been done
and the reward is committed to the key. -/
structure Signed (E : Env) (height : Nat) (b : Block) (signer : Blob pqAuthPubSize) : Prop where
  named : getPqMinerSpendPubFromExtra b.baseTransaction.extra = some signer
  work : (E.prims.prevalidateBlockProofOfWork b).isSome
  reward : ∃ amount unlockHeight, b.baseTransaction.outputs = [⟨amount, unlockHeight,
    .coinbase ⟨spendCommit E.P signer (coinbaseRho E.P signer (UInt32.ofNat height) 0)⟩⟩]

variable {b : Block} {height : Nat}

theorem validateBlockSignature_reward {P : Primitives} (hpos : 0 < height)
    (h : validateBlockSignature P b height = true) :
    ∃ signer, getPqMinerSpendPubFromExtra b.baseTransaction.extra = some signer ∧
      ∃ amount unlockHeight, b.baseTransaction.outputs = [⟨amount, unlockHeight,
        .coinbase ⟨spendCommit P signer (coinbaseRho P signer (UInt32.ofNat height) 0)⟩⟩] := by
  unfold validateBlockSignature at h
  rw [if_neg (by omega)] at h
  split at h
  · cases h
  · split at h
    · rename_i signer o hkey hout
      split at h
      · rename_i cb htarget
        obtain ⟨amount, unlockHeight, target⟩ := o
        obtain ⟨commit⟩ := cb
        cases htarget
        rw [decide_eq_true_eq] at h
        exact ⟨signer, hkey, amount, unlockHeight, by rw [hout, ← h]⟩
      · cases h
    · cases h

variable {E : Env}

/-- Outside the zone the work is computed, now or by the caller. -/
theorem checkBlockProof_work {id : Hash} {difficulty : UInt64}
    {prevalidated : Option Hash} (hpos : 0 < height) (hzone : E.checkpoints.isInCheckpointZone height = false)
    (hpre : ∀ p ∈ prevalidated, E.prims.prevalidateBlockProofOfWork b = some p)
    (h : checkBlockProof E height id b difficulty prevalidated = .ok ()) :
    (E.prims.prevalidateBlockProofOfWork b).isSome := by
  unfold checkBlockProof at h
  rw [if_neg (by omega), hzone] at h
  cases prevalidated with
  | some p => rw [hpre p rfl]; rfl
  | none =>
    cases hwork : E.prims.prevalidateBlockProofOfWork b with
    | none => simp [hwork] at h
    | some p => rfl

variable {clock : Nat} {db : Db} {sb : StoredBlock}

theorem Pushed.signed {db' : Db} (h : Pushed E clock db sb db')
    (hpos : 0 < db.getChainHeight) (hzone : E.checkpoints.isInCheckpointZone db.getChainHeight = false) :
    ∃ signer, Signed E db.getChainHeight sb.block signer := by
  obtain ⟨now, -, alt, prevalidated, hpre, hp⟩ := h.pushed
  obtain ⟨_, _, _, _, hok, -⟩ := pushBlock_ok.mp hp
  obtain ⟨signer, hkey, hreward⟩ := validateBlockSignature_reward hpos hok.signature
  exact ⟨signer, hkey, checkBlockProof_work hpos hzone hpre hok.proof, hreward⟩

theorem Built.signed {blocks : List StoredBlock} (h : Built E clock blocks db) (hpos : 0 < height)
    (hsb : blocks[height]? = some sb) (hzone : E.checkpoints.isInCheckpointZone height = false) :
    ∃ signer, Signed E height sb.block signer := by
  induction h with
  | genesis _ _ =>
    rw [List.getElem?_eq_none (by rw [List.length_singleton]; omega)] at hsb
    cases hsb
  | @push blocks db _ _ hb hp ih =>
    rcases Nat.lt_or_ge height blocks.length with hlt | hge
    · rw [List.getElem?_append_left hlt] at hsb
      exact ih hsb
    · -- the block pushed last has the height of the store before it
      have heq : height = db.getChainHeight := by
        have := (List.getElem?_eq_some_iff.mp hsb).1
        rw [List.length_append, List.length_singleton] at this
        rw [hb.length]
        omega
      subst heq
      rw [hb.length, List.getElem?_concat_length, Option.some.injEq] at hsb
      subst hsb
      exact hp.signed hpos hzone

/-! ## What a spend resolves to -/

/-- An input that names a coinbase of the chain resolves to one of its outputs. -/
theorem Built.resolves_coinbase {blocks : List StoredBlock} (h : Built E clock blocks db)
    (hsb : blocks[height]? = some sb) {inp : PqInput} (hid : inp.prevTxid = getObjectHash E.P sb.block.baseTransaction)
    (hpresent : (db.resolveInput inp).1.present = true) :
    ∃ o ∈ sb.block.baseTransaction.outputs, spendCommitOf o.target = some (db.resolveInput inp).1.spendCommit := by
  unfold Db.resolveInput at hpresent ⊢
  split at hpresent
  · cases hpresent
  · rename_i block o href
    obtain ⟨c, hc, -⟩ := h.checked.2.refersTo href
    have hmem := stored_mem_chainTxsFrom (show (sb.transactions E.P)[0]? = some _ from rfl) 0 hsb
    have hsame := h.checked.2.unique hc.mem hmem (hc.hash.trans hid)
    subst hsame
    split at hpresent
    · cases hpresent
    · rename_i commit hcommit
      split at hpresent
      · rename_i hunlocked
        rw [if_pos hunlocked]
        exact ⟨o, List.mem_of_getElem? hc.output, hcommit⟩
      · cases hpresent

/-- The key of an input that opens the reward of a signed block, unless the two preimages collide. -/
theorem Signed.opens {signer : Blob pqAuthPubSize}
    (h : Signed E height b signer) {o : TransactionOutput} (ho : o ∈ b.baseTransaction.outputs)
    {key : Blob pqAuthPubSize} {rho : Blob pqRhoSize} (hopen : spendCommitOf o.target = some (spendCommit E.P key rho))
    (hfree : CollisionFree E.P.sha3_256 [spendCommitPreimage key rho]
      [spendCommitPreimage signer (coinbaseRho E.P signer (UInt32.ofNat height) 0)]) : key = signer := by
  obtain ⟨amount, unlockHeight, hout⟩ := h.reward
  rw [hout, List.mem_singleton] at ho
  subst ho
  have hcommit : spendCommit E.P key rho = spendCommit E.P signer (coinbaseRho E.P signer (UInt32.ofNat height) 0) := by
    simpa [spendCommitOf] using hopen.symm
  have hpre := hfree (.inl (List.mem_singleton.mpr rfl)) (.inr (List.mem_singleton.mpr rfl)) hcommit
  exact (spendCommitPreimage_inj hpre).1

end Discrete.L3

namespace Discrete.L4
open L1 L2 L3 Codec

/-! ## The proof of work -/

/-- The signature of `b` verifies under `signer` over the message made of its hashing blob. -/
def MinedBy (Q : PowPrimitives) (b : Block) (signer : Blob pqAuthPubSize) : Prop :=
  ∃ blob signature, getBlockHashingBlob Q.toPrimitives b = some blob ∧ signature.val = b.signature ∧
    Q.dsaVerify signer (powMessage Q blob) signature = true

/-- The same, computed. -/
def signedBy (Q : PowPrimitives) (b : Block) (signer : Blob pqAuthPubSize) : Bool :=
  (getBlockHashingBlob Q.toPrimitives b).any fun blob =>
    if h : b.signature.length = pqSignatureSize then Q.dsaVerify signer (powMessage Q blob) ⟨b.signature, h⟩ else false

theorem signedBy_iff {Q : PowPrimitives} {b : Block} {signer : Blob pqAuthPubSize} :
    signedBy Q b signer = true ↔ MinedBy Q b signer := by
  unfold signedBy
  rw [Option.any_eq_true]
  constructor
  · rintro ⟨blob, hblob, h⟩
    split at h
    · rename_i hlen
      exact ⟨blob, ⟨b.signature, hlen⟩, hblob, rfl, h⟩
    · cases h
  · rintro ⟨blob, ⟨signature, hlen⟩, hblob, hsig, h⟩
    dsimp only at hsig
    subst hsig
    exact ⟨blob, hblob, by rwa [dif_pos hlen]⟩

instance (Q : PowPrimitives) (b : Block) (signer : Blob pqAuthPubSize) : Decidable (MinedBy Q b signer) :=
  decidable_of_iff _ signedBy_iff

theorem prevalidate_mined {Q : PowPrimitives} {b : Block} {signer : Blob pqAuthPubSize}
    (hkey : getPqMinerSpendPubFromExtra b.baseTransaction.extra = some signer)
    (h : (L2.prevalidateBlockProofOfWork Q b).isSome) : MinedBy Q b signer := by
  obtain ⟨pow, h⟩ := Option.isSome_iff_exists.mp h
  unfold L2.prevalidateBlockProofOfWork at h
  rw [hkey, Option.bind_eq_bind, Option.bind_eq_some_iff] at h
  obtain ⟨blob, hblob, h⟩ := h
  simp only [Option.bind_eq_bind, Option.bind_some] at h
  unfold discretePowerVerify at h
  split at h
  · rename_i hlen
    split at h
    · rename_i hverify
      exact ⟨blob, ⟨b.signature, hlen⟩, hblob, rfl, hverify⟩
    · cases h
  · cases h

/-- Whoever spends the reward of a block of the main chain holds the key that signed its work. -/
theorem mined_identity {N : NodeEnv} {Q : PowPrimitives} (hQ : N.prims = Q.nodePrimitives) {s : Node}
    (h : (nodeLts N).Reachable s) {height : Nat} (hpos : 0 < height)
    (hzone : N.checkpoints.isInCheckpointZone height = false) {sb : StoredBlock}
    (hsb : s.db.storedBlocks[height]? = some sb) :
    ∃ signer, getPqMinerSpendPubFromExtra sb.block.baseTransaction.extra = some signer ∧ MinedBy Q sb.block signer ∧
      ∀ (tx : Transaction) (resolved : List PqResolvedInput) (minFee : Nat) (signing : PqSigningContext)
        (nullifiers : List Hash) (i : Nat) (inp : PqInput),
        checkPqTransactionInputs N.P tx resolved minFee signing = .ok nullifiers →
        tx.inputs[i]? = some (.pq inp) → inp.prevTxid = getObjectHash N.P sb.block.baseTransaction →
        resolved[i]? = some (s.db.resolveInput inp).1 →
        CollisionFree N.P.sha3_256 [spendCommitPreimage (toDsaPub inp.authPub) (toRho inp.rhoReveal)]
          [spendCommitPreimage signer (coinbaseRho N.P signer (UInt32.ofNat height) 0)] →
        toDsaPub inp.authPub = signer := by
  have hbuilt := (node_inv h).ok.built
  obtain ⟨signer, hsigned⟩ := hbuilt.signed hpos hsb hzone
  have hwork := hsigned.work
  rw [show N.toEnv.prims = Q.nodePrimitives from hQ] at hwork
  refine ⟨signer, hsigned.named, prevalidate_mined hsigned.named hwork, ?_⟩
  intro tx resolved minFee signing nullifiers i inp hcheck hi hid hres hfree
  obtain ⟨_, _, hok⟩ := InputsOk.of_ok hcheck
  obtain ⟨r, hr, howned⟩ := hok.at hi
  obtain rfl : r = (s.db.resolveInput inp).1 := by rwa [hres, Option.some.injEq, eq_comm] at hr
  obtain ⟨o, ho, hcommit⟩ := hbuilt.resolves_coinbase hsb hid howned.present
  rw [← howned.commit] at hcommit
  exact hsigned.opens ho hcommit hfree

/-! ### A run -/

/-- `flatPrimitives` with the block functions of this repository. -/
def flatPow : PowPrimitives :=
  { flatPrimitives with
    shake256 := sumPow.shake256
    yespower := sumPow.yespower
    parentBlockBlob := sumPow.parentBlockBlob }

def powNode : NodeEnv := { flatNode with prims := flatPow.nodePrimitives }

/-- Block 1, with an output that is not locked. -/
def powReward : Block :=
  toyBlock 1 (powNode.prims.getBlockHash flatGenesis) 1090 ⟨8010, 0, .coinbase ⟨nullHash⟩⟩ []

def powRho : Blob pqRhoSize := coinbaseRho powNode.P toyKey 1 0

/-- The miner of block 1 spends the reward. -/
def powSpend : Transaction := toyTransfer [(getObjectHash powNode.P powReward.baseTransaction, powRho)] 8000

theorem mined_identity_powReward :
    ∃ s sb, (nodeLts powNode).Reachable s ∧ s.db.storedBlocks[1]? = some sb ∧
      ∃ resolved nullifiers, checkPqTransactionInputs powNode.P powSpend resolved minimumFee
          (powNode.currency.pqSigningContextForHeight 2) = .ok nullifiers ∧
        ∀ inp ∈ powSpend.pqInputs, MinedBy flatPow sb.block (toDsaPub inp.authPub) := by
  obtain ⟨s, hrun, hp⟩ := (Option.any_eq_true _ _).mp (show
    (addBlocks powNode 1 flatGenesis [powReward]).any (fun s =>
      (s.db.storedBlocks[1]?).any fun sb => decide (sb.block = powReward ∧
        checkPqTransactionInputs powNode.P powSpend (powSpend.pqInputs.map fun i => (s.db.resolveInput i).1)
          minimumFee (powNode.currency.pqSigningContextForHeight 2) = .ok [nullHash])) = true by decide +kernel)
  obtain ⟨sb, hsb, hp⟩ := (Option.any_eq_true _ _).mp hp
  obtain ⟨hblock, hcheck⟩ := of_decide_eq_true hp
  have hreach : (nodeLts powNode).Reachable s := addBlocks_run id .inl rfl hrun
  obtain ⟨signer, hnamed, hmined, hspend⟩ := mined_identity (Q := flatPow) rfl hreach (by decide) rfl hsb
  have hkey : getPqMinerSpendPubFromExtra powReward.baseTransaction.extra = some toyKey := by decide +kernel
  rw [hblock, hkey, Option.some.injEq] at hnamed
  subst hnamed
  refine ⟨s, sb, hreach, hsb, _, _, hcheck, ?_⟩
  intro inp hinp
  obtain rfl : inp = ⟨getObjectHash powNode.P powReward.baseTransaction, 0, toyKey.val, powRho.val, pqNoKeyRef⟩ :=
    List.mem_singleton.mp hinp
  have hopen := hspend powSpend _ minimumFee _ _ 0 _ hcheck rfl (by rw [hblock]) rfl (by
    -- the reward was made for the key and the rho that the input reveals
    have hsame : spendCommitPreimage (toDsaPub toyKey.val) (toRho powRho.val) =
        spendCommitPreimage toyKey (coinbaseRho powNode.P toyKey (UInt32.ofNat 1) 0) := by decide +kernel
    rw [hsame]
    exact collisionFree_iff.mpr (by simp))
  rw [hopen]
  exact hmined

end Discrete.L4
