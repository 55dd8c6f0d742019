import Discrete.L4Node.TemplateReward

/-!
# Remembered failures of pool transactions (`Blockchain.cpp`, `TransactionPool.cpp`)

A pool entry remembers the block its last successful input check depended on and the tip
at its last failed one. `is_transaction_ready_to_go` asks these before it checks again.
A failure is remembered as "failed at this block" and believed for as long as the block is
on the main chain, not only while it is the tip.

* `ready_iff_not_recalled`: a pool transaction that passes a fresh check is ready exactly
  when the entry's memory does not refuse it.
* `Recalled.grow`: while the chain only grows, an entry that has never passed stays
  refused by its memory for good.
* `matured_refused`: so does a transfer of an output that was locked when it was tried.
-/
namespace Discrete.L4
open L1 L2 L3

/-- The cached blocks refuse the transaction before it is checked: it has never passed and
failed at a block that is still on the chain, or the block it depended on is beyond the
chain, or that block was replaced and the last failure is at a block on the chain. -/
def Recalled (db : Db) (info : TransactionCheckInfo) : Prop :=
  if info.maxUsedBlock.empty then
    ¬ info.lastFailedBlock.empty ∧ info.lastFailedBlock.height < db.getChainHeight ∧
      db.getBlockIdByHeight info.lastFailedBlock.height = info.lastFailedBlock.id
  else db.getChainHeight ≤ info.maxUsedBlock.height ∨
    db.getBlockIdByHeight info.maxUsedBlock.height ≠ info.maxUsedBlock.id ∧
      info.lastFailedBlock.id = db.getBlockIdByHeight info.lastFailedBlock.height

instance (db : Db) (info : TransactionCheckInfo) : Decidable (Recalled db info) := by
  unfold Recalled
  infer_instance

section
variable {E : Env} {db : Db} {tx : Transaction} {info : TransactionCheckInfo}

theorem checkTransactionInputsCached_recalled (h : Recalled db info) :
    checkTransactionInputsCached E db tx info = (false, info) := by
  unfold Recalled at h
  unfold checkTransactionInputsCached
  split at h
  · rename_i hempty
    rw [if_pos hempty, if_pos h]
  · rename_i hempty
    rw [if_neg hempty]
    rcases h with h | h
    · rw [if_pos h]
    · rw [if_pos h, ite_self]

theorem checkTransactionInputsCached_fresh (h : ¬ Recalled db info) :
    checkTransactionInputsCached E db tx info = recheckTransactionInputs E db tx info := by
  unfold Recalled at h
  unfold checkTransactionInputsCached
  split at h
  · rename_i hempty
    rw [if_pos hempty, if_neg h]
  · rename_i hempty
    rw [not_or] at h
    rw [if_neg hempty, if_neg h.1, if_neg h.2]

/-- Unless it has the type of a coinbase, a transaction is judged without what the caller
remembers. -/
theorem checkTransactionInputsMaxUsed_fst (hcoinbase : tx.txType ≠ txCoinbase) (maxUsed maxUsed' : BlockInfo) :
    (checkTransactionInputsMaxUsed E db tx maxUsed).1 = (checkTransactionInputsMaxUsed E db tx maxUsed').1 := by
  unfold checkTransactionInputsMaxUsed
  split
  · rfl
  · rename_i max? hcheck
    have hsome : ∃ height, max? = some height := by
      unfold checkTransactionInputs at hcheck
      split at hcheck; · cases hcheck
      split at hcheck; · cases hcheck
      split at hcheck
      · split at hcheck; · cases hcheck
        obtain ⟨height, -, rfl⟩ := Option.map_eq_some_iff.mp hcheck
        exact ⟨height, rfl⟩
      split at hcheck
      · obtain ⟨height, -, rfl⟩ := Option.map_eq_some_iff.mp hcheck
        exact ⟨height, rfl⟩
      · cases hcheck
    obtain ⟨height, rfl⟩ := hsome
    simp only [Option.getD_some]
    split <;> rfl

theorem recheckTransactionInputs_fst :
    (recheckTransactionInputs E db tx info).1 = (checkTransactionInputsMaxUsed E db tx info.maxUsedBlock).1 := by
  unfold recheckTransactionInputs
  split <;> simp_all

/-- What passes the input checks, behind the gate, spends nothing that is spent. -/
theorem not_spent_of_checked (hgate : Gated E.P tx) (h : (checkTransactionInputs E db tx none).isSome) :
    haveTransactionKeyImagesAsSpent E.P db tx = false := by
  obtain ⟨m, hm⟩ := Option.isSome_iff_exists.mp h
  obtain ⟨hversion, hok⟩ := TxInputsOk.of_some hm
  obtain ⟨kept, hsemantic⟩ := hgate
  have hgateOk := GateOk.of_true hversion hsemantic
  unfold haveTransactionKeyImagesAsSpent
  rw [List.any_eq_false]
  cases hok with
  | transfer fee _ hok =>
    intro k hk
    obtain ⟨i, hi, rfl⟩ := List.mem_map.mp hk
    rw [hok.unspent i hi]
    exact Bool.false_ne_true
  | freeReg htype =>
    cases hgateOk with
    | transfer hs =>
      have htransfer := hs.transfer
      rw [htype] at htransfer
      exact absurd htransfer (by decide)
    | freeReg _ hinputs _ =>
      intro k hk
      rw [spendImages, TransactionPrefix.pqInputs, hinputs] at hk
      cases hk
  | coinbase htype => exact absurd htype hgateOk.not_coinbase

end

/-- For every reachable node and every transaction of its pool that passes a fresh check at
the tip: it is ready to go exactly when the entry's memory does not refuse it. -/
theorem ready_iff_not_recalled {N : NodeEnv} {s : Node} (h : (nodeLts N).Reachable s)
    {d : TransactionDetails} (hd : d ∈ s.pool.transactions.entries)
    (hfresh : (checkTransactionInputsMaxUsed N.toEnv s.db d.tx .clear).1 = true) :
    (isTransactionReadyToGo N.toEnv s.db d.tx d.toTransactionCheckInfo).1 = true ↔
      ¬ Recalled s.db d.toTransactionCheckInfo := by
  have hgate := ((node_inv h).ok.pool _ _ (view_of_mem hd)).2
  have hpass := checkTransactionInputsMaxUsed_true hfresh
  have hcoinbase : d.tx.txType ≠ txCoinbase := by
    obtain ⟨m, hm⟩ := Option.isSome_iff_exists.mp hpass
    obtain ⟨kept, hsemantic⟩ := hgate
    exact (GateOk.of_true (TxInputsOk.of_some hm).1 hsemantic).not_coinbase
  unfold isTransactionReadyToGo
  by_cases hrecall : Recalled s.db d.toTransactionCheckInfo
  · rw [checkTransactionInputsCached_recalled hrecall]
    exact iff_of_false Bool.false_ne_true (not_not.mpr hrecall)
  · rw [checkTransactionInputsCached_fresh hrecall]
    refine iff_of_true ?_ hrecall
    have hrecheck : (recheckTransactionInputs N.toEnv s.db d.tx d.toTransactionCheckInfo).1 = true := by
      rw [recheckTransactionInputs_fst, checkTransactionInputsMaxUsed_fst hcoinbase _ .clear, hfresh]
    split
    · rename_i heq
      rw [heq] at hrecheck
      cases hrecheck
    · rw [not_spent_of_checked hgate hpass]
      rfl

/-! ### Runs -/

/-- While blocks are only added, an entry that has never passed stays refused. -/
theorem Recalled.grow {db db' : Db} {info : TransactionCheckInfo} (hnever : info.maxUsedBlock.empty = true)
    (h : Recalled db info) (hgrow : db.metas <+: db'.metas) : Recalled db' info := by
  unfold Recalled at h ⊢
  rw [if_pos hnever] at h ⊢
  obtain ⟨hfailed, hlt, hid⟩ := h
  have hlen := hgrow.length_le
  obtain ⟨more, hmore⟩ := hgrow
  have hlt' : info.lastFailedBlock.height < db.metas.length := hlt
  refine ⟨hfailed, lt_of_lt_of_le hlt hlen, ?_⟩
  rw [← hid, Db.getBlockIdByHeight, ← hmore, List.getElem?_append_left hlt']
  rfl

/-- Genesis with an output that is locked until the chain has two blocks. -/
def lockedGenesis : Block := toyBlock 0 nullHash 1000 ⟨1000, 2, .coinbase ⟨nullHash⟩⟩ []

/-- A transfer of it. -/
def lockedSpend : Transaction :=
  toyTransfer [(getObjectHash flatNode.P lockedGenesis.baseTransaction, toyRho 0)] 990

/-- The transfer comes with a block while its input is locked, and a template tries it. -/
def lockedTried (s : Node) : Node :=
  ((handleIncomingTx flatNode s (toBinaryArray lockedSpend) true).2.fillBlockTemplate flatNode 100000 100000).2

/-- One more block on genesis. -/
def lockedGrown (s : Node) : Option Node :=
  (addNewBlock flatNode 1 s (flatNext lockedGenesis 1 1090 []) none).map Prod.snd

theorem lockedGrown_reachable {s s' : Node} (h : (nodeLts flatNode).Reachable s)
    (hgrown : lockedGrown (lockedTried s) = some s') : (nodeLts flatNode).Reachable s' := by
  obtain ⟨⟨outcome, s₁⟩, hcall, rfl⟩ := Option.map_eq_some_iff.mp hgrown
  have h₁ := h.step (.inr (.inl (.transaction (toBinaryArray lockedSpend) true)))
  have h₂ := h₁.step (.inr (.inl (.template 100000 100000)))
  exact h₂.step (.inl (.mk 1 _ none (by simp) hcall))

/-- With the second block the output is unlocked and the transfer passes a fresh check, but it
is not ready: it failed at genesis, and genesis is on the chain. -/
theorem matured_refused :
    ∃ s, (nodeLts flatNode).Reachable s ∧ s.db.getChainHeight = 2 ∧ ∃ d ∈ s.pool.transactions.entries,
        (checkTransactionInputsMaxUsed flatNode.toEnv s.db d.tx .clear).1 = true ∧
        (isTransactionReadyToGo flatNode.toEnv s.db d.tx d.toTransactionCheckInfo).1 = false := by
  obtain ⟨s₀, hrun, hp⟩ := (Option.any_eq_true _ _).mp (show
    (addBlocks flatNode 1 lockedGenesis []).any (fun s₀ =>
      (lockedGrown (lockedTried s₀)).any fun s =>
        decide (s.db.getChainHeight = 2 ∧ ∃ d ∈ s.pool.transactions.entries,
          (checkTransactionInputsMaxUsed flatNode.toEnv s.db d.tx .clear).1 = true ∧
          (isTransactionReadyToGo flatNode.toEnv s.db d.tx d.toTransactionCheckInfo).1 = false)) = true by
    decide +kernel)
  obtain ⟨s, hgrown, hp⟩ := (Option.any_eq_true _ _).mp hp
  exact ⟨s, lockedGrown_reachable (addBlocks_run id .inl rfl hrun) hgrown, of_decide_eq_true hp⟩

/-- The transfer of an unlocked output, relayed and never tried. -/
theorem ready_flatSpend :
    ∃ s, (nodeLts flatNode).Reachable s ∧ ∃ d ∈ s.pool.transactions.entries,
      (isTransactionReadyToGo flatNode.toEnv s.db d.tx d.toTransactionCheckInfo).1 = true := by
  obtain ⟨s₀, hrun, hp⟩ := (Option.any_eq_true _ _).mp (show
    (addBlocks flatNode 1 flatGenesis []).any (fun s₀ =>
      decide (∃ d ∈ (flatArrived s₀).pool.transactions.entries,
        (checkTransactionInputsMaxUsed flatNode.toEnv (flatArrived s₀).db d.tx .clear).1 = true ∧
          ¬ Recalled (flatArrived s₀).db d.toTransactionCheckInfo)) = true by decide +kernel)
  obtain ⟨d, hd, hfresh, hnot⟩ := of_decide_eq_true hp
  have hstart : (nodeLts flatNode).Reachable s₀ := addBlocks_run id .inl rfl hrun
  have hreach : (nodeLts flatNode).Reachable (flatArrived s₀) :=
    hstart.step (.inr (.inl (.transaction _ false)))
  exact ⟨_, hreach, d, hd, (ready_iff_not_recalled hreach hd hfresh).mpr hnot⟩

end Discrete.L4
