import Discrete.Core.FifoSet
import Discrete.Core.Machine
import Discrete.L4Node.Invariant

/-!
# Remembered registration proofs (`Blockchain.cpp`)

The proof of work of a free registration is memory-hard, so its verdict is remembered
under the tuple it commits to (account, reference block, nonce), in one bounded set for
proofs that verified and one for those that did not. Two functions consult the sets:
phase one (`precheckFreeRegPow`, before any lock is taken) and phase two
(`checkFreeRegInputs`, under the locks).

The chain moves between the calls in any way it likes: the event `chain` puts any store
in the place of the one before.

* `free_reg_caches`: phase two decides as it would without the sets. Phase one asks the
  sets before it looks at the chain, so a proof that once verified passes it even when
  the chain no longer admits the registration; otherwise it decides as without them.
* `addNewTx_refused`: what phase one lets pass that way, phase two refuses, and the node is
  as it was.
-/
namespace Discrete.L4
open L1 L2 L3

/-! ## The source -/

def freeRegBadProofCacheSize : Nat := 8192

/-- mirrors Blockchain.cpp:2090-2100 -/
def freeRegProofTuple (P : Primitives) (identity refBlockHash : Hash) (nonce : UInt64) : Hash :=
  P.cnFastHash (identity.val ++ refBlockHash.val ++ le64 nonce)

/-- mirrors Blockchain.cpp:2102-2110 -/
def freeRegProofTupleOf (P : Primitives) (tx : Transaction) : Option Hash :=
  match getPqAccountRegistrationFromExtra tx.extra, getPowTagFromExtra tx.extra with
  | some reg, some pow =>
    some (freeRegProofTuple P (getPqAccountIdentityHash P reg) pow.refBlockHash pow.nonce)
  | _, _ => none

/-- `m_goodFreeRegProofs` and `m_badFreeRegProofs`, each with its order. -/
structure FreeRegProofs where
  good : FifoSet Hash
  bad : FifoSet Hash

namespace FreeRegProofs

def empty : FreeRegProofs := ⟨.empty, .empty⟩

/-- mirrors Blockchain.cpp:2248-2262 -/
def rememberBad (c : FreeRegProofs) (proofTuple : Hash) : FreeRegProofs :=
  { c with bad := c.bad.remember freeRegBadProofCacheSize proofTuple }

/-- mirrors Blockchain.cpp:2269-2284 -/
def rememberGood (c : FreeRegProofs) (proofTuple : Hash) : FreeRegProofs :=
  { c with good := c.good.remember freeRegBadProofCacheSize proofTuple }

end FreeRegProofs

/-- Evaluate the proof and remember the verdict. -/
def evaluateProof (E : Env) (c : FreeRegProofs) (tx : Transaction) (proofTuple : Hash) :
    Bool × FreeRegProofs :=
  match checkFreeRegTransactionPow E.prims tx freeRegPowTarget with
  | .error _ => (false, c.rememberBad proofTuple)
  | .ok () => (true, c.rememberGood proofTuple)

/-- Phase two. The tags are there once the chain state is.
mirrors Blockchain.cpp:2161-2203 -/
def checkFreeRegInputsCached (E : Env) (db : Db) (c : FreeRegProofs) (tx : Transaction) :
    Option Nat × FreeRegProofs :=
  match freeRegChainStateOk E db tx, freeRegProofTupleOf E.P tx with
  | some refHeight, some proofTuple =>
    if c.bad.contains proofTuple then (none, c)
    else if c.good.contains proofTuple then (some refHeight, c)
    else
      match evaluateProof E c tx proofTuple with
      | (true, c) => (some refHeight, c)
      | (false, c) => (none, c)
  | _, _ => (none, c)

/-- Phase one.
mirrors Blockchain.cpp:2205-2241 -/
def precheckFreeRegPowCached (E : Env) (db : Db) (c : FreeRegProofs) (tx : Transaction) :
    Bool × FreeRegProofs :=
  match freeRegProofTupleOf E.P tx with
  | none => (false, c)
  | some proofTuple =>
    if c.bad.contains proofTuple then (false, c)
    else if c.good.contains proofTuple then (true, c)
    else
      match freeRegChainStateOk E db tx with
      | none => (false, c)
      | some _ => evaluateProof E c tx proofTuple

/-! ## Runs -/

structure RegState where
  db : Db
  proofs : FreeRegProofs

inductive RegEvent where
  | precheck (tx : Transaction)
  | check (tx : Transaction)
  | chain (db : Db)

/-- The registrations an event is about. -/
def RegEvent.About (K : Transaction → Prop) : RegEvent → Prop
  | .precheck tx => K tx
  | .check tx => K tx
  | .chain _ => True

def regMachine (E : Env) : Machine RegState RegEvent where
  Init s := s.proofs = .empty
  step s
    | .precheck tx => some { s with proofs := (precheckFreeRegPowCached E s.db s.proofs tx).2 }
    | .check tx => some { s with proofs := (checkFreeRegInputsCached E s.db s.proofs tx).2 }
    | .chain db => some { s with db := db }

/-- Runs over the registrations in `K`. -/
def regLts (E : Env) (K : Transaction → Prop) : Lts RegState :=
  (regMachine E).lts fun _ e => e.About K

/-! ## A tuple stands for its proof -/

/-- What the account of a registration is hashed from. -/
def identityPreimage (reg : ExtraPqAccountRegistration) : Bytes :=
  kDomainAccountId ++ reg.viewPub.val ++ reg.spendPub.val

/-- The two hashes separate what the registrations in `K` have hashed. -/
structure ProofsSeparate (E : Env) (K : Transaction → Prop) : Prop where
  identity : ∀ {tx tx' reg reg'}, K tx → K tx' → getPqAccountRegistrationFromExtra tx.extra = some reg →
    getPqAccountRegistrationFromExtra tx'.extra = some reg' →
    E.P.sha3_256 (identityPreimage reg) = E.P.sha3_256 (identityPreimage reg') →
    identityPreimage reg = identityPreimage reg'
  tuple : ∀ {tx tx' reg reg' pow pow'}, K tx → K tx' →
    getPqAccountRegistrationFromExtra tx.extra = some reg → getPowTagFromExtra tx.extra = some pow →
    getPqAccountRegistrationFromExtra tx'.extra = some reg' → getPowTagFromExtra tx'.extra = some pow' →
    freeRegProofTuple E.P (getPqAccountIdentityHash E.P reg) pow.refBlockHash pow.nonce =
      freeRegProofTuple E.P (getPqAccountIdentityHash E.P reg') pow'.refBlockHash pow'.nonce →
    (getPqAccountIdentityHash E.P reg).val ++ pow.refBlockHash.val ++ le64 pow.nonce =
      (getPqAccountIdentityHash E.P reg').val ++ pow'.refBlockHash.val ++ le64 pow'.nonce

/-- The verdict on the proof alone. -/
def proofOk (E : Env) (tx : Transaction) : Bool :=
  match checkFreeRegTransactionPow E.prims tx freeRegPowTarget with
  | .error _ => false
  | .ok () => true

section
variable {E : Env} {K : Transaction → Prop} {db : Db} {c : FreeRegProofs} {tx tx' : Transaction}
  {proofTuple : Hash}

theorem freeRegProofTupleOf_eq_some (h : freeRegProofTupleOf E.P tx = some proofTuple) :
    ∃ reg pow, getPqAccountRegistrationFromExtra tx.extra = some reg ∧ getPowTagFromExtra tx.extra = some pow ∧
      freeRegProofTuple E.P (getPqAccountIdentityHash E.P reg) pow.refBlockHash pow.nonce = proofTuple := by
  unfold freeRegProofTupleOf at h
  split at h
  · rename_i reg pow hreg hpow
    exact ⟨reg, pow, hreg, hpow, Option.some.inj h⟩
  · cases h

/-- One tuple, one verdict. -/
theorem ProofsSeparate.proofOk_eq (hK : ProofsSeparate E K) (htx : K tx) (htx' : K tx')
    (h : freeRegProofTupleOf E.P tx = some proofTuple) (h' : freeRegProofTupleOf E.P tx' = some proofTuple) :
    proofOk E tx = proofOk E tx' := by
  obtain ⟨reg, pow, hreg, hpow, ht⟩ := freeRegProofTupleOf_eq_some h
  obtain ⟨reg', pow', hreg', hpow', ht'⟩ := freeRegProofTupleOf_eq_some h'
  have hpre := hK.tuple htx htx' hreg hpow hreg' hpow' (ht.trans ht'.symm)
  -- the three parts of the tuple have fixed lengths
  obtain ⟨hfront, hnonce⟩ := List.append_inj' hpre (by rw [le64_length, le64_length])
  obtain ⟨hid, href⟩ := List.append_inj' hfront (by rw [pow.refBlockHash.2, pow'.refBlockHash.2])
  have hkeys := hK.identity htx htx' hreg hreg' (Subtype.ext hid)
  have hpreimage : freeRegPowDomain ++ reg.viewPub.val ++ reg.spendPub.val ++ pow.refBlockHash.val ++ le64 pow.nonce =
      freeRegPowDomain ++ reg'.viewPub.val ++ reg'.spendPub.val ++ pow'.refBlockHash.val ++ le64 pow'.nonce := by
    have hkeys' : reg.viewPub.val ++ reg.spendPub.val = reg'.viewPub.val ++ reg'.spendPub.val := by
      simpa only [identityPreimage, List.append_assoc, List.append_cancel_left_eq] using hkeys
    rw [List.append_assoc freeRegPowDomain reg.viewPub.val,
      List.append_assoc freeRegPowDomain reg'.viewPub.val, hkeys', href, hnonce]
  unfold proofOk checkFreeRegTransactionPow checkFreeRegPow
  rw [hreg, hpow, hreg', hpow']
  simp only [hpreimage]

/-! ## What the sets hold -/

/-- Set and queue of each are together and bounded, and a remembered verdict is that of
some registration with the tuple. -/
structure ProofsInv (E : Env) (K : Transaction → Prop) (c : FreeRegProofs) : Prop where
  goodOk : c.good.Ok freeRegBadProofCacheSize
  badOk : c.bad.Ok freeRegBadProofCacheSize
  good : ∀ t ∈ c.good.known, ∃ tx, K tx ∧ freeRegProofTupleOf E.P tx = some t ∧ proofOk E tx = true
  bad : ∀ t ∈ c.bad.known, ∃ tx, K tx ∧ freeRegProofTupleOf E.P tx = some t ∧ proofOk E tx = false

theorem proofsInv_empty : ProofsInv E K .empty where
  goodOk := FifoSet.ok_empty _
  badOk := FifoSet.ok_empty _
  good := by
    intro t ht
    cases ht
  bad := by
    intro t ht
    cases ht

variable (h : ProofsInv E K c) (hK : ProofsSeparate E K) (htx : K tx)
  (ht : freeRegProofTupleOf E.P tx = some proofTuple)
include h htx

include ht in
theorem ProofsInv.evaluate : ProofsInv E K (evaluateProof E c tx proofTuple).2 := by
  unfold evaluateProof
  split
  · rename_i e he
    refine ⟨h.goodOk, h.badOk.remember (by decide) proofTuple, h.good, ?_⟩
    intro t hmem
    rcases FifoSet.known_remember hmem with hold | rfl
    · exact h.bad t hold
    · exact ⟨tx, htx, ht, by rw [proofOk, he]⟩
  · rename_i hok
    refine ⟨h.goodOk.remember (by decide) proofTuple, h.badOk, ?_, h.bad⟩
    intro t hmem
    rcases FifoSet.known_remember hmem with hold | rfl
    · exact h.good t hold
    · exact ⟨tx, htx, ht, by rw [proofOk, hok]⟩

theorem ProofsInv.precheck : ProofsInv E K (precheckFreeRegPowCached E db c tx).2 := by
  unfold precheckFreeRegPowCached
  split
  · exact h
  · rename_i t ht
    split
    · exact h
    split
    · exact h
    split
    · exact h
    · exact h.evaluate htx ht

theorem ProofsInv.check : ProofsInv E K (checkFreeRegInputsCached E db c tx).2 := by
  unfold checkFreeRegInputsCached
  split
  · rename_i refHeight t hstate ht
    have heval := h.evaluate htx ht
    split
    · exact h
    split
    · exact h
    split
    · rename_i c' he
      rwa [he] at heval
    · rename_i c' he
      rwa [he] at heval
  · exact h

omit h htx in
theorem proofsInv_reachable {s : RegState} (h : (regLts E K).Reachable s) : ProofsInv E K s.proofs := by
  refine (Machine.inductive_of_step (I := fun s : RegState => ProofsInv E K s.proofs) ?_ ?_).reachable h
  · intro s hinit
    rw [show s.proofs = .empty from hinit]
    exact proofsInv_empty
  · rintro s e t hs he hstep
    cases e with
    | precheck tx =>
      cases hstep
      exact hs.precheck he
    | check tx =>
      cases hstep
      exact hs.check he
    | chain db =>
      cases hstep
      exact hs

/-! ## Verdicts -/

include hK ht

theorem ProofsInv.good_ok (hmem : c.good.contains proofTuple = true) : proofOk E tx = true := by
  obtain ⟨tx', htx', ht', hok⟩ := h.good proofTuple (of_decide_eq_true hmem)
  rw [hK.proofOk_eq htx htx' ht ht', hok]

theorem ProofsInv.bad_ok (hmem : c.bad.contains proofTuple = true) : proofOk E tx = false := by
  obtain ⟨tx', htx', ht', hbad⟩ := h.bad proofTuple (of_decide_eq_true hmem)
  rw [hK.proofOk_eq htx htx' ht ht', hbad]

omit h hK htx ht

theorem evaluateProof_fst : (evaluateProof E c tx proofTuple).1 = proofOk E tx := by
  unfold evaluateProof proofOk
  split <;> rfl

/-- The check without the sets, by the chain state and the proof. -/
theorem checkFreeRegInputs_eq :
    checkFreeRegInputs E db tx = bif proofOk E tx then freeRegChainStateOk E db tx else none := by
  unfold checkFreeRegInputs proofOk
  cases freeRegChainStateOk E db tx with
  | none => exact (Bool.cond_self _ none).symm
  | some refHeight =>
    cases checkFreeRegTransactionPow E.prims tx freeRegPowTarget <;> rfl

/-- The chain state admits only what carries both tags. -/
theorem tupleOf_of_chainState {refHeight : Nat} (h : freeRegChainStateOk E db tx = some refHeight) :
    ∃ t, freeRegProofTupleOf E.P tx = some t := by
  unfold freeRegChainStateOk at h
  split at h
  · rename_i reg pow hreg hpow
    exact ⟨_, by rw [freeRegProofTupleOf, hreg, hpow]⟩
  · cases h

include h hK htx

theorem ProofsInv.check_verdict : (checkFreeRegInputsCached E db c tx).1 = checkFreeRegInputs E db tx := by
  rw [checkFreeRegInputs_eq]
  unfold checkFreeRegInputsCached
  split
  · rename_i refHeight t hstate ht
    have heval : (evaluateProof E c tx t).1 = proofOk E tx := evaluateProof_fst
    rw [hstate]
    split
    · rename_i hbad
      rw [h.bad_ok hK htx ht hbad]
      rfl
    split
    · rename_i hgood
      rw [h.good_ok hK htx ht hgood]
      rfl
    split
    · rename_i c' he
      rw [he] at heval
      rw [← heval]
      rfl
    · rename_i c' he
      rw [he] at heval
      rw [← heval]
      rfl
  · rename_i hnot
    cases hstate : freeRegChainStateOk E db tx with
    | none => exact (Bool.cond_self _ none).symm
    | some refHeight =>
      obtain ⟨t, ht⟩ := tupleOf_of_chainState hstate
      exact absurd ht (hnot refHeight t hstate)

theorem ProofsInv.precheck_verdict :
    (precheckFreeRegPowCached E db c tx).1 =
      ((freeRegProofTupleOf E.P tx).any c.good.contains || (checkFreeRegInputs E db tx).isSome) := by
  rw [checkFreeRegInputs_eq]
  unfold precheckFreeRegPowCached
  split
  · rename_i ht
    cases hstate : freeRegChainStateOk E db tx with
    | none => simp [ht]
    | some refHeight =>
      obtain ⟨t, ht'⟩ := tupleOf_of_chainState hstate
      rw [ht'] at ht
      cases ht
  · rename_i t ht
    split
    · rename_i hbad
      have hnot := h.bad_ok hK htx ht hbad
      have hgood : c.good.contains t = false := by
        refine Bool.eq_false_iff.mpr fun hgood => ?_
        rw [h.good_ok hK htx ht hgood] at hnot
        cases hnot
      simp [ht, hgood, hnot]
    split
    · rename_i hgood
      simp [ht, hgood]
    · rename_i hgood
      rw [Bool.not_eq_true] at hgood
      split
      · rename_i hstate
        simp [ht, hgood, hstate]
      · rename_i refHeight hstate
        rw [evaluateProof_fst]
        cases hok : proofOk E tx <;> simp [ht, hgood, hstate]

end

/-- In every run over registrations whose hashes separate them, however the chain moves:
phase two decides as without the sets; phase one does, except that it lets a remembered
good proof pass without looking at the chain, and such a proof is valid; both phases on
one chain together decide as without the sets. Each set holds exactly what its queue
holds, at most `freeRegBadProofCacheSize` entries. -/
theorem free_reg_caches {E : Env} {K : Transaction → Prop} (hK : ProofsSeparate E K) {s : RegState}
    (h : (regLts E K).Reachable s) :
    (∀ tx, K tx → (checkFreeRegInputsCached E s.db s.proofs tx).1 = checkFreeRegInputs E s.db tx ∧
      (precheckFreeRegPowCached E s.db s.proofs tx).1 = ((freeRegProofTupleOf E.P tx).any s.proofs.good.contains ||
          (checkFreeRegInputs E s.db tx).isSome) ∧ ((freeRegProofTupleOf E.P tx).any s.proofs.good.contains = true →
        checkFreeRegTransactionPow E.prims tx freeRegPowTarget = .ok ()) ∧
      ((precheckFreeRegPowCached E s.db s.proofs tx).1 &&
        (checkFreeRegInputsCached E s.db (precheckFreeRegPowCached E s.db s.proofs tx).2 tx).1.isSome) =
        (checkFreeRegInputs E s.db tx).isSome) ∧
    (s.proofs.good.known = s.proofs.good.order.toFinset ∧ s.proofs.good.order.Nodup ∧
      s.proofs.good.order.length ≤ freeRegBadProofCacheSize) ∧
    (s.proofs.bad.known = s.proofs.bad.order.toFinset ∧ s.proofs.bad.order.Nodup ∧
      s.proofs.bad.order.length ≤ freeRegBadProofCacheSize) := by
  have hinv := proofsInv_reachable h
  refine ⟨?_, ⟨hinv.goodOk.known, hinv.goodOk.nodup, hinv.goodOk.bounded⟩,
    hinv.badOk.known, hinv.badOk.nodup, hinv.badOk.bounded⟩
  intro tx htx
  have hpre : (precheckFreeRegPowCached E s.db s.proofs tx).1 = _ := hinv.precheck_verdict hK htx
  refine ⟨hinv.check_verdict hK htx, hpre, ?_, ?_⟩
  · intro hgood
    obtain ⟨t, ht, hmem⟩ := (Option.any_eq_true _ _).mp hgood
    have hok := hinv.good_ok hK htx ht hmem
    unfold proofOk at hok
    split at hok
    · cases hok
    · assumption
  · rw [(hinv.precheck htx).check_verdict hK htx, hpre]
    cases (checkFreeRegInputs E s.db tx).isSome <;> simp

/-! ### Runs of one registration -/

/-- A registration of zero keys, with the null hash as its reference block. -/
def toyRegistration : Transaction where
  version := 1
  txType := txFreeReg
  unlockHeight := 0
  inputs := []
  outputs := []
  extra := txExtraTagPqAccountRegistration :: List.replicate (pqViewPubSize + pqAuthPubSize) 0 ++
    txExtraTagPow :: List.replicate 40 0
  pqSignatures := []

/-- A chain of one block, the one the registration refers to. -/
def referredDb : Db :=
  { Db.empty with
    metas := [⟨nullHash, nullHash, 0, 0, 0, 0, 0, 0, 1, 0⟩]
    hashHeight := Table.empty.put nullHash 0 }

def IsToyRegistration (tx : Transaction) : Prop := tx = toyRegistration

theorem isToyRegistration : IsToyRegistration toyRegistration := Eq.refl toyRegistration

theorem toyRegistration_separate (E : Env) : ProofsSeparate E IsToyRegistration where
  identity := by
    intro tx tx' reg reg' htx htx' hreg hreg' _
    rw [htx] at hreg
    rw [htx', hreg, Option.some.injEq] at hreg'
    rw [hreg']
  tuple := by
    intro tx tx' reg reg' pow pow' htx htx' hreg hpow hreg' hpow' _
    rw [htx] at hreg hpow
    rw [htx', hreg, Option.some.injEq] at hreg'
    rw [htx', hpow, Option.some.injEq] at hpow'
    rw [hreg', hpow']

/-- A registration is prechecked, and then the chain is replaced. -/
theorem prechecked_reachable (E : Env) {K : Transaction → Prop} {tx : Transaction} (htx : K tx) (db db' : Db) :
    (regLts E K).Reachable ⟨db', (precheckFreeRegPowCached E db .empty tx).2⟩ := by
  have h₀ : (regLts E K).Reachable ⟨db, .empty⟩ := .init rfl
  have h₁ : (regLts E K).Reachable ⟨db, (precheckFreeRegPowCached E db .empty tx).2⟩ :=
    h₀.step ⟨.precheck tx, htx, rfl⟩
  exact h₁.step ⟨.chain db', trivial, rfl⟩

/-- The registration was prechecked while its reference block was there, and now the chain
is `db`. -/
def precheckedState (db : Db) : RegState :=
  ⟨db, (precheckFreeRegPowCached (toyEnv .none) referredDb .empty toyRegistration).2⟩

theorem precheckedState_reachable (db : Db) :
    (regLts (toyEnv .none) IsToyRegistration).Reachable (precheckedState db) :=
  prechecked_reachable _ isToyRegistration referredDb db

/-- Without the block the registration refers to, phase one still lets it pass. -/
theorem precheck_remembers :
    ∃ s, (regLts (toyEnv .none) IsToyRegistration).Reachable s ∧
      (precheckFreeRegPowCached (toyEnv .none) s.db s.proofs toyRegistration).1 = true ∧
      (precheckFreeRegPowCached (toyEnv .none) s.db .empty toyRegistration).1 = false :=
  ⟨precheckedState Db.empty, precheckedState_reachable Db.empty, by decide +kernel⟩

theorem free_reg_caches_toy :
    ∃ s, (regLts (toyEnv .none) IsToyRegistration).Reachable s ∧ s.proofs.good.order.length = 1 ∧
      (checkFreeRegInputsCached (toyEnv .none) s.db s.proofs toyRegistration).1 =
        checkFreeRegInputs (toyEnv .none) s.db toyRegistration := by
  have hreach := precheckedState_reachable referredDb
  exact ⟨_, hreach, by decide +kernel,
    ((free_reg_caches (toyRegistration_separate _) hreach).1 toyRegistration isToyRegistration).1⟩

/-! ## Admission -/

/-- A registration the chain does not admit changes nothing, even when phase one lets it
pass. -/
theorem addNewTx_refused {N : NodeEnv} {s : Node} {tx : Transaction} (hreg : isFreeReg tx = true)
    (hrefused : precheckFreeRegPow N s.db tx = false) (txHash : Hash) (blobSize : Nat) :
    (s.addNewTx N tx txHash blobSize false).2.db = s.db ∧ (s.addNewTx N tx txHash blobSize false).2.pool = s.pool := by
  have htype : tx.txType = txFreeReg := by
    simp only [isFreeReg, Bool.and_eq_true, decide_eq_true_eq] at hreg
    exact hreg.2
  have hnone : checkTransactionInputs N.toEnv s.db tx none = none := by
    have hcheck : checkFreeRegInputs N.toEnv s.db tx = none := by
      rwa [precheckFreeRegPow, Option.isSome_eq_false_iff, Option.isNone_iff_eq_none] at hrefused
    unfold checkTransactionInputs
    rw [htype, hcheck]
    simp [isPqTransfer, txFreeReg, txPq, txPqV2]
  have hmax : (checkTransactionInputsMaxUsed N.toEnv s.db tx .clear).1 = false := by
    rw [checkTransactionInputsMaxUsed, hnone]
  have hpool : ∀ limit now, (L4.addTx N.toEnv s.db limit now s.pool tx txHash blobSize false).2 = s.pool := by
    intro limit now
    unfold L4.addTx
    simp only [hmax]
    split_ifs <;> first | rfl | simp_all
  unfold Node.addNewTx
  split
  · exact ⟨rfl, rfl⟩
  split
  · exact ⟨rfl, rfl⟩
  · exact ⟨rfl, hpool _ _⟩

end Discrete.L4
