import Discrete.L6Wallet.Sender

/-!
# Delivery of an output

Does a recipient get what the sender built, and nothing else? `Output` has the sender's and the
recipient's functions; here an output is scanned with other data than it was built with. The
scan tries the current context, in `Compatible` mode then the legacy one at `T = 0`, and the
window tries the legacy ones up to `maxT`: each has its own key and its own associated data.

The AEAD is ideal for one ciphertext at a time (`Authentic`): it decrypts only under a key and
data with which it has been encrypted. For all ciphertexts at once no AEAD is, since tags have
16 bytes. Likewise `sha3_256` has no collision among the strings that the scan hashes.

`output_delivered`: the output as built is recognised with its index, amount, opening and route;
with another amount, index, inputs hash, spend key or payload nothing is, in both modes and in
every window; and the window is tried only in `Compatible` mode after the scan has failed.
-/
namespace Discrete.L6
open List L1 L2 Codec

/-- One encryption. -/
structure Sealing where
  key : Hash
  aad : Bytes
  msg : Bytes

/-- What a scan reads of an output besides the KEM ciphertext and the commitment, and the keys'
part that is not the decapsulation key. -/
structure ScanView where
  inputsHash : Hash
  spendPub : DsaPublicKey
  outputIndex : UInt32
  amount : UInt64
  encPayload : Bytes
  deriving DecidableEq

def ScanView.output (v : ScanView) (kemCt : KemCiphertext) (commit : Hash) : PqScanOutput :=
  ⟨v.outputIndex, v.amount, kemCt, v.encPayload, commit⟩

def outContextPreimage (inputsHash : Hash) (kemCt : KemCiphertext) (outputIndex : UInt32) : Bytes :=
  kDomainOutContextV2 ++ inputsHash.val ++ kemCt.val ++ le32 outputIndex

def legacyContextPreimage (inputsHash : Hash) (kemCt : KemCiphertext) (outputIndex : UInt32)
    (subaddrIndexT : UInt64) : Bytes :=
  kDomainOutContext ++ inputsHash.val ++ kemCt.val ++ le32 outputIndex ++ le64 subaddrIndexT

/-- What is hashed for the contexts of a view: the current one, and the legacy ones below `maxT`. -/
def ScanView.preimages (v : ScanView) (kemCt : KemCiphertext) (maxT : UInt64) : List Bytes :=
  outContextPreimage v.inputsHash kemCt v.outputIndex ::
    (List.range (max 1 maxT.toNat)).map fun t =>
      legacyContextPreimage v.inputsHash kemCt v.outputIndex (UInt64.ofNat t)

section
variable (W : WalletPrimitives)

/-- mirrors PqScan.cpp:178-185 -/
def scanPqOutputLegacyTWindow (keys : PqScanKeys) (inputsHash : Hash) (out : PqScanOutput) (maxT : UInt64) :
    Option PqOwnedOutput :=
  tryOwnedLegacyTWindow W (W.kemDecaps keys.viewSk out.kemCt) keys.spendPub inputsHash out 0 maxT

/-- `ct` decrypts only to what has been encrypted under the same key and associated data; `made`
are the encryptions that have taken place. -/
def Authentic (made : Set Sealing) (ct : Bytes) : Prop :=
  ∀ key aad msg, W.aeadDecrypt key aad ct = some msg → ⟨key, aad, msg⟩ ∈ made ∧ W.aeadEncrypt key aad msg = ct

/-- The encryption of `buildPqOutput`. -/
def outputSealing (kemCt : KemCiphertext) (ss : KemShared) (inputsHash : Hash) (outputIndex : UInt32)
    (amount : UInt64) (rho : Rho) (subaddrIndexT : UInt64) : Sealing where
  key := deriveAeadKey W ss (outContext W inputsHash kemCt outputIndex)
  aad := payloadAad (outContext W inputsHash kemCt outputIndex) amount
  msg := rho.val ++ le64 subaddrIndexT

/-- Nobody has forged the payload of `v`: the only encryption under keys of this shared secret is
the sender's, and no hash collides. -/
structure Unforged (ss : KemShared) (kemCt : KemCiphertext) (rho : Rho) (subaddrIndexT maxT : UInt64)
    (sent v : ScanView) : Prop where
  sealed : ∃ made : Set Sealing, Authentic W made v.encPayload ∧ ∀ s ∈ made, (∃ oc, s.key = deriveAeadKey W ss oc) →
      s = outputSealing W kemCt ss sent.inputsHash sent.outputIndex sent.amount rho subaddrIndexT
  hashes : Set.InjOn W.sha3_256
    {b | b ∈ outContextPreimage sent.inputsHash kemCt sent.outputIndex :: v.preimages kemCt maxT ++
      [spendCommitPreimage sent.spendPub rho, spendCommitPreimage v.spendPub rho]}

end

/-! ## Contexts -/

theorem outContextPreimage_inj {ih ih' : Hash} {kemCt : KemCiphertext} {i i' : UInt32}
    (h : outContextPreimage ih kemCt i = outContextPreimage ih' kemCt i') : ih = ih' ∧ i = i' := by
  simp only [outContextPreimage, append_assoc, append_cancel_left_eq] at h
  obtain ⟨hih, h⟩ := blob_delimited _ trivial trivial h
  rw [append_cancel_left_eq] at h
  exact ⟨hih, le32_delimited.inj trivial trivial h⟩

/-- The tags have the same length and differ. -/
theorem outContextPreimage_ne_legacy {ih ih' : Hash} {kemCt kemCt' : KemCiphertext} {i i' : UInt32} {t : UInt64} :
    outContextPreimage ih kemCt i ≠ legacyContextPreimage ih' kemCt' i' t := by
  intro h
  simp only [outContextPreimage, legacyContextPreimage, append_assoc] at h
  obtain ⟨htag, -⟩ := append_inj h (by decide)
  exact absurd htag (by decide)

theorem payloadAad_inj {oc oc' : Hash} {amount amount' : UInt64} (h : payloadAad oc amount = payloadAad oc' amount') :
    oc = oc' ∧ amount = amount' := by
  obtain ⟨hoc, h⟩ := blob_delimited _ trivial trivial h
  exact ⟨hoc, le64_delimited.inj trivial trivial h⟩

/-! ## Recognition of a changed output -/

section
variable {W : WalletPrimitives} {ss : KemShared} {kemCt : KemCiphertext} {rho : Rho} {t maxT : UInt64}
  {sent v : ScanView} {commit : Hash}

/-- What decrypts is the sender's payload, under the sender's context and amount. -/
theorem Unforged.decrypted (h : Unforged W ss kemCt rho t maxT sent v) {oc : Hash} {dp : DecryptedPayload}
    (hdec : tryDecrypt W ss oc (v.output kemCt commit) = some dp) :
    oc = outContext W sent.inputsHash kemCt sent.outputIndex ∧ v.amount = sent.amount ∧
      v.encPayload = W.aeadEncrypt (deriveAeadKey W ss oc) (payloadAad oc sent.amount) (rho.val ++ le64 t) ∧
      dp = ⟨rho, t⟩ := by
  obtain ⟨made, hauthentic, honce⟩ := h.sealed
  unfold tryDecrypt at hdec
  split at hdec
  · cases hdec
  · rename_i pt hpt
    split at hdec
    · cases hdec
    · obtain ⟨hmade, henc⟩ := hauthentic _ _ _ hpt
      have hsame := honce _ hmade ⟨oc, rfl⟩
      simp only [outputSealing, Sealing.mk.injEq] at hsame
      obtain ⟨-, haad, rfl⟩ := hsame
      obtain ⟨hoc, hamount⟩ := payloadAad_inj haad
      obtain ⟨-, hrho, ht⟩ := payload_read rho t
      rw [hrho, ht, Option.some.injEq] at hdec
      refine ⟨hoc, hamount, ?_, hdec.symm⟩
      rw [← hamount]
      exact henc.symm

theorem ScanView.mem_legacy {i : Nat} (hi : i < max 1 maxT.toNat) :
    legacyContextPreimage v.inputsHash kemCt v.outputIndex (UInt64.ofNat i) ∈ v.preimages kemCt maxT :=
  mem_cons_of_mem _ (List.mem_map.mpr ⟨i, mem_range.mpr hi, rfl⟩)

section
variable (h : Unforged W ss kemCt rho t maxT sent v)
include h

/-- No legacy context decrypts a payload of the current format. -/
theorem Unforged.legacy (commit : Hash) {i : Nat} (hi : i < max 1 maxT.toNat) :
    tryDecrypt W ss (legacyOutContextV1 W v.inputsHash kemCt v.outputIndex (UInt64.ofNat i))
      (v.output kemCt commit) = none := by
  rw [Option.eq_none_iff_forall_ne_some]
  intro dp hdec
  obtain ⟨hoc, -⟩ := h.decrypted hdec
  have hpre := h.hashes (mem_cons_of_mem _ (mem_append_left _ (ScanView.mem_legacy hi)))
    (mem_cons_self ..) hoc
  exact outContextPreimage_ne_legacy hpre.symm

/-- Under the current context only the output as it was sent decrypts, and only for the key it
commits to. -/
theorem Unforged.current
    (hpayload : sent.encPayload = W.aeadEncrypt (deriveAeadKey W ss (outContext W sent.inputsHash kemCt sent.outputIndex))
      (payloadAad (outContext W sent.inputsHash kemCt sent.outputIndex) sent.amount) (rho.val ++ le64 t))
    (hcommit : commit = spendCommit W.toPrimitives sent.spendPub rho) {dp : DecryptedPayload} {o : PqOwnedOutput}
    (hdec : tryDecrypt W ss (outContext W v.inputsHash kemCt v.outputIndex) (v.output kemCt commit) = some dp)
    (hown : finishOwned W v.spendPub (v.output kemCt commit) dp (outContext W v.inputsHash kemCt v.outputIndex) = some o) :
    v = sent := by
  obtain ⟨hoc, hamount, henc, rfl⟩ := h.decrypted hdec
  have hctx := h.hashes (mem_cons_of_mem _ (mem_append_left _ (mem_cons_self ..)))
    (mem_cons_self ..) hoc
  obtain ⟨hinputs, hindex⟩ := outContextPreimage_inj hctx
  have hopened := (finishOwned_owned hown).commit
  have hrho : o.rho = rho := by
    unfold finishOwned at hown
    split at hown
    · cases hown
    · cases hown
      rfl
  rw [hrho] at hopened
  have hspend := h.hashes (mem_append_right _ (mem_cons_of_mem _ (mem_cons_self ..)))
    (mem_append_right _ (mem_cons_self ..)) (hopened.trans hcommit)
  have hkey := (spendCommitPreimage_inj hspend).1
  rw [hoc, ← hpayload] at henc
  cases v
  cases sent
  simp only [ScanView.mk.injEq]
  exact ⟨hinputs, hkey, hindex, hamount, henc⟩

theorem Unforged.tryOwned_none
    (hpayload : sent.encPayload = W.aeadEncrypt (deriveAeadKey W ss (outContext W sent.inputsHash kemCt sent.outputIndex))
      (payloadAad (outContext W sent.inputsHash kemCt sent.outputIndex) sent.amount) (rho.val ++ le64 t))
    (hcommit : commit = spendCommit W.toPrimitives sent.spendPub rho) (hne : v ≠ sent) (mode : PqScanMode) :
    tryOwned W ss v.spendPub v.inputsHash (v.output kemCt commit) mode = none := by
  have hcurrent : ((tryDecrypt W ss (outContext W v.inputsHash kemCt v.outputIndex) (v.output kemCt commit)).bind
      fun dp => finishOwned W v.spendPub (v.output kemCt commit) dp (outContext W v.inputsHash kemCt v.outputIndex)) =
      none := by
    rw [Option.eq_none_iff_forall_ne_some]
    intro o ho
    obtain ⟨dp, hdec, hown⟩ := Option.bind_eq_some_iff.mp ho
    exact hne (h.current hpayload hcommit hdec hown)
  have hlegacy := h.legacy commit (i := 0) (Nat.lt_of_lt_of_le Nat.zero_lt_one (Nat.le_max_left ..))
  unfold tryOwned
  simp only [ScanView.output] at hcurrent hlegacy ⊢
  rw [hcurrent]
  dsimp only
  split
  · rfl
  · exact Option.bind_eq_none_iff.mpr fun dp hdp => absurd (hlegacy.symm.trans hdp) nofun

theorem Unforged.window_none :
    tryOwnedLegacyTWindow W ss v.spendPub v.inputsHash (v.output kemCt commit) 1 maxT = none := by
  unfold tryOwnedLegacyTWindow
  rw [findSome?_eq_none_iff]
  intro i hi
  have hlt : i < max 1 maxT.toNat := by
    rw [mem_range'_1] at hi
    have h1 : (1 : UInt64).toNat = 1 := rfl
    omega
  have hlegacy := h.legacy commit hlt
  simp only [tryLegacyT]
  exact Option.bind_eq_none_iff.mpr fun dp hdp => absurd (hlegacy.symm.trans hdp) nofun

end

end

/-! ## The window -/

section
variable {W : WalletPrimitives}

/-- The route of a record found in the window is the one that was tried. -/
theorem tryLegacyT_route {ss : KemShared} {spendPub : DsaPublicKey} {ih : Hash} {out : PqScanOutput} {t : UInt64}
    {o : PqOwnedOutput} (h : tryLegacyT W ss spendPub ih out t = some o) : o.subaddrIndexT = t := by
  unfold tryLegacyT at h
  obtain ⟨dp, -, hdp⟩ := Option.bind_eq_some_iff.mp h
  split at hdp
  · rename_i ht
    unfold finishOwned at hdp
    split at hdp
    · cases hdp
    · cases hdp
      exact ht
  · cases hdp

/-- After a failed scan in `Compatible` mode the route 0 has been tried. -/
theorem tryLegacyT_zero {ss : KemShared} {spendPub : DsaPublicKey} {ih : Hash} {out : PqScanOutput}
    (h : tryOwned W ss spendPub ih out .compatible = none) : tryLegacyT W ss spendPub ih out 0 = none := by
  unfold tryOwned at h
  dsimp only at h
  split at h
  · cases h
  · rw [if_neg (not_not.mpr rfl)] at h
    exact h

/-- The window from 1 finds what the window from 0 finds, if there is nothing at 0. -/
theorem tryOwnedLegacyTWindow_one {ss : KemShared} {spendPub : DsaPublicKey} {ih : Hash} {out : PqScanOutput}
    {maxT : UInt64} (h : tryLegacyT W ss spendPub ih out 0 = none) :
    tryOwnedLegacyTWindow W ss spendPub ih out 1 maxT = (tryOwnedLegacyTWindow W ss spendPub ih out 0 maxT).filter
        fun o => decide (1 ≤ o.subaddrIndexT ∧ o.subaddrIndexT < maxT) := by
  have hfull : tryOwnedLegacyTWindow W ss spendPub ih out 0 maxT = tryOwnedLegacyTWindow W ss spendPub ih out 1 maxT := by
    unfold tryOwnedLegacyTWindow
    rw [show (0 : UInt64).toNat = 0 from rfl, show (1 : UInt64).toNat = 1 from rfl, Nat.sub_zero]
    cases maxT.toNat with
    | zero => rfl
    | succ n =>
      rw [range'_succ, findSome?_cons]
      have hzero : tryLegacyT W ss spendPub ih out (UInt64.ofNat 0) = none := h
      rw [hzero]
      rfl
  rw [hfull]
  cases hfound : tryOwnedLegacyTWindow W ss spendPub ih out 1 maxT with
  | none => rfl
  | some o =>
    obtain ⟨i, hi, ho⟩ := exists_of_findSome?_eq_some hfound
    have hroute := tryLegacyT_route ho
    rw [mem_range'_1] at hi
    have h1 : (1 : UInt64).toNat = 1 := rfl
    have hmax := maxT.toNat_lt
    have hnat : o.subaddrIndexT.toNat = i := by
      rw [hroute]
      exact UInt64.toNat_ofNat_of_lt' (show i < 2 ^ 64 by omega)
    rw [Option.filter_some, if_pos]
    rw [decide_eq_true_iff, UInt64.le_iff_toNat_le, UInt64.lt_iff_toNat_lt, hnat]
    omega

/-! ## Delivery -/

/-- What the recipient is given of a built output. -/
def PqBuiltOutput.view (b : PqBuiltOutput) (spendPub : DsaPublicKey) (inputsHash : Hash) (outputIndex : UInt32)
    (amount : UInt64) : ScanView :=
  ⟨inputsHash, spendPub, outputIndex, amount, b.encPayload⟩

theorem output_delivered (hW : W.Correct) (seed : Blob 64) (spendPub : DsaPublicKey) (ih : Hash) (i : UInt32)
    (amount t : UInt64) (coins : OutputCoins) :
    ∃ b, buildPqOutput W (W.kemKeygen seed).1 spendPub ih i amount t coins = some b ∧
      (∀ mode, scanPqOutput W ⟨(W.kemKeygen seed).2, spendPub⟩ ih (b.onChain i amount) mode =
        some ⟨i, amount, t, coins.rho, b.outContext⟩) ∧ (∀ (v : ScanView) (maxT : UInt64) (mode : PqScanMode),
        Unforged W (W.kemEncaps (W.kemKeygen seed).1 coins.encaps).2 b.kemCt coins.rho t maxT
          (b.view spendPub ih i amount) v → v ≠ b.view spendPub ih i amount →
        scanPqOutput W ⟨(W.kemKeygen seed).2, v.spendPub⟩ v.inputsHash (v.output b.kemCt b.spendCommit) mode = none ∧
          scanPqOutputWithLegacyTWindow W ⟨(W.kemKeygen seed).2, v.spendPub⟩ v.inputsHash
            (v.output b.kemCt b.spendCommit) maxT mode = none) ∧
      ∀ (keys : PqScanKeys) (ih' : Hash) (out : PqScanOutput) (maxT : UInt64) (mode : PqScanMode),
        scanPqOutputWithLegacyTWindow W keys ih' out maxT mode = (scanPqOutput W keys ih' out mode).or
            (if mode = .compatible then
              (scanPqOutputLegacyTWindow W keys ih' out maxT).filter
                fun o => decide (1 ≤ o.subaddrIndexT ∧ o.subaddrIndexT < maxT)
            else none) := by
  have hss := hW.kem seed coins.encaps
  refine ⟨_, buildPqOutput_eq hW _ _ _ _ _ _ _, ?_, ?_, ?_⟩
  · intro mode
    rw [scanPqOutput, scanPqOutputWithSharedSecret]
    simp only [PqBuiltOutput.onChain, sealPqOutput] at hss ⊢
    rw [hss]
    exact tryOwned_built hW _ _ _ _ _ _ _ _ _
  · intro v maxT mode hforged hne
    have hscan := hforged.tryOwned_none rfl rfl hne mode
    have hdecaps : W.kemDecaps (W.kemKeygen seed).2 (v.output (W.kemEncaps (W.kemKeygen seed).1 coins.encaps).1
        (spendCommit W.toPrimitives spendPub coins.rho)).kemCt =
        (W.kemEncaps (W.kemKeygen seed).1 coins.encaps).2 := hss
    constructor
    · rw [scanPqOutput, scanPqOutputWithSharedSecret]
      simp only [sealPqOutput, hdecaps]
      exact hscan
    · unfold scanPqOutputWithLegacyTWindow
      simp only [sealPqOutput, hdecaps]
      simp only [PqBuiltOutput.view, sealPqOutput] at hscan
      rw [hscan]
      dsimp only
      split
      · rfl
      · exact hforged.window_none
  · intro keys ih' out maxT mode
    unfold scanPqOutputWithLegacyTWindow scanPqOutput scanPqOutputWithSharedSecret
    dsimp only
    split
    · rename_i o ho
      rw [ho, Option.some_or]
    · rename_i hnone
      rw [hnone, Option.none_or]
      cases mode with
      | strictV2 => rfl
      | compatible =>
        rw [if_neg (not_not.mpr rfl), if_pos rfl]
        exact tryOwnedLegacyTWindow_one (tryLegacyT_zero hnone)

end

/-- An AEAD with one key: its ciphertexts, and only those, end in zeros. -/
def oneKeyWallet (key : Hash) (aad : Bytes) : WalletPrimitives :=
  { toyWallet with
    aeadEncrypt := fun k a msg => msg ++ List.replicate aeadTagBytes (if k = key ∧ a = aad then 0 else 1)
    aeadDecrypt := fun k a ct =>
      if ct.drop (ct.length - aeadTagBytes) = List.replicate aeadTagBytes (if k = key ∧ a = aad then 0 else 1) then
        some (ct.take (ct.length - aeadTagBytes))
      else none }

theorem oneKeyWallet_correct (key : Hash) (aad : Bytes) : (oneKeyWallet key aad).Correct where
  sign := toyWallet_correct.sign
  kem := toyWallet_correct.kem
  aead := fun k a msg => by simp [oneKeyWallet]
  aead_length := fun k a msg => by simp [oneKeyWallet]

/-- Only the one encryption can give a ciphertext that ends in zeros. -/
theorem oneKeyWallet_authentic (key : Hash) (aad msg : Bytes) :
    Authentic (oneKeyWallet key aad) {⟨key, aad, msg⟩} (msg ++ List.replicate aeadTagBytes 0) := by
  intro k a m h
  simp only [oneKeyWallet, length_append, length_replicate, Nat.add_sub_cancel, drop_left,
    take_left, Option.ite_none_right_eq_some, Option.some.injEq] at h
  obtain ⟨htag, rfl⟩ := h
  have hsame : k = key ∧ a = aad := by
    by_contra hne
    rw [if_neg hne] at htag
    exact absurd htag (by decide)
  obtain ⟨rfl, rfl⟩ := hsame
  exact ⟨rfl, by simp [oneKeyWallet]⟩

def toyKemSeed : Blob 64 := ⟨List.replicate 64 5, length_replicate⟩

def toyEncaps : KemCiphertext × KemShared :=
  toyWallet.kemEncaps (toyWallet.kemKeygen toyKemSeed).1 (toyCoins 0 1).encaps

/-- The context does not depend on the AEAD. -/
def toyContext : Hash := outContext toyWallet nullHash toyEncaps.1 3

def toyDelivery : WalletPrimitives :=
  oneKeyWallet (deriveAeadKey toyWallet toyEncaps.2 toyContext) (payloadAad toyContext 1000)

def toyScanned (amount : UInt64) : ScanView :=
  ⟨nullHash, toyKeys.spendPub, 3, amount, (toyCoins 0 1).rho.val ++ le64 7 ++ List.replicate aeadTagBytes 0⟩

theorem toyScanned_unforged :
    Unforged toyDelivery toyEncaps.2 toyEncaps.1 (toyCoins 0 1).rho 7 4 (toyScanned 1000) (toyScanned 1001) where
  sealed := ⟨_, oneKeyWallet_authentic _ _ _, fun _ hs _ => hs⟩
  hashes := by
    have hdistinct : ∀ x ∈ outContextPreimage nullHash toyEncaps.1 3 :: (toyScanned 1001).preimages toyEncaps.1 4 ++
          [spendCommitPreimage toyKeys.spendPub (toyCoins 0 1).rho, spendCommitPreimage toyKeys.spendPub (toyCoins 0 1).rho],
        ∀ y ∈ outContextPreimage nullHash toyEncaps.1 3 :: (toyScanned 1001).preimages toyEncaps.1 4 ++
          [spendCommitPreimage toyKeys.spendPub (toyCoins 0 1).rho, spendCommitPreimage toyKeys.spendPub (toyCoins 0 1).rho],
        L3.toyHash x = L3.toyHash y → x = y := by
      decide +kernel
    exact fun x hx y hy e => hdistinct x hx y hy e

/-- The amount on the chain raised by one: neither the scan nor the window finds the output. -/
theorem output_delivered_amount : ∃ b, buildPqOutput toyDelivery (toyDelivery.kemKeygen toyKemSeed).1 toyKeys.spendPub
      nullHash 3 1000 7 (toyCoins 0 1) = some b ∧
    ∀ mode, scanPqOutputWithLegacyTWindow toyDelivery ⟨(toyDelivery.kemKeygen toyKemSeed).2, toyKeys.spendPub⟩ nullHash
      (b.onChain 3 1001) 4 mode = none := by
  have hW : toyDelivery.Correct := oneKeyWallet_correct _ _
  obtain ⟨b, hb, -, hforged, -⟩ := output_delivered hW toyKemSeed toyKeys.spendPub nullHash 3 1000 7 (toyCoins 0 1)
  refine ⟨b, hb, fun mode => ?_⟩
  rw [buildPqOutput_eq hW, Option.some.injEq] at hb
  have hpayload : b.encPayload = (toyScanned 1000).encPayload := by
    rw [← hb]
    exact congrArg (fun tag => (toyCoins 0 1).rho.val ++ le64 7 ++ List.replicate aeadTagBytes tag) (if_pos ⟨rfl, rfl⟩)
  have hsent : b.view toyKeys.spendPub nullHash 3 1000 = toyScanned 1000 := by
    rw [PqBuiltOutput.view, hpayload]
    rfl
  have hkem : b.kemCt = toyEncaps.1 := by
    rw [← hb]
    rfl
  rw [hsent, hkem] at hforged
  have hscan := (hforged (toyScanned 1001) 4 mode toyScanned_unforged
    fun hsame => absurd (congrArg ScanView.amount hsame) (by decide)).2
  have hview : b.onChain 3 1001 = (toyScanned 1001).output toyEncaps.1 b.spendCommit := by
    rw [PqBuiltOutput.onChain, hpayload, hkem]
    rfl
  rw [hview]
  exact hscan

end Discrete.L6
