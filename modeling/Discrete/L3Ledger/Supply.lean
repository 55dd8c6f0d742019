import Discrete.Core.Journal
import Discrete.L3Ledger.Spends

/-!
# Supply

The transactions of the chain form a journal of outputs and spends; its account,
`supply`, is the sum of all outputs not spent yet. A block changes it by its
coinbase and by the fees of its transactions, and `alreadyGeneratedCoins` by the
emission change. The two changes agree word for word: the sums of a transfer are
exact (`PqInputsOk.balance`), the coinbase is exactly the reward, and the penalized
part of the fees leaves circulation on both sides.

* `CheckedChain.journal`: a checked chain is a valid journal.
* `supply_conserved`: the coins recorded at the tip are the unspent outputs, and no
  block mints more than the base reward and its fees.
-/
namespace Discrete.L3
open UInt64 List L1 L2

/-- A transaction as a journal entry. -/
def ChainTx.toEntry (c : ChainTx) : Journal.Entry Hash TransactionOutput where
  id := c.hash
  spends := c.tx.pqInputs.map fun i => (i.prevTxid, i.prevOutIndex.toNat)
  outs := c.tx.outputs

def outputValue (o : TransactionOutput) : Nat := o.amount.toNat

/-- The sum of all outputs of the chain that no input of the chain spends. -/
def supply (txs : List ChainTx) : Nat := Journal.total outputValue (txs.map ChainTx.toEntry)

/-- The amount of a created output. -/
def amountAt (txs : List ChainTx) (k : Hash × Nat) : Nat :=
  (((Journal.created (txs.map ChainTx.toEntry)).lookup k).map outputValue).getD 0

/-- What the inputs of a transaction are worth beyond its outputs. -/
def givenUp (v : Hash × Nat → Nat) (c : ChainTx) : Nat :=
  (c.toEntry.spends.map v).sum - (c.tx.outputs.map outputValue).sum

/-- What a block's coinbase pays out. -/
def minted (b : Block) : Nat := (b.baseTransaction.outputs.map outputValue).sum

/-! ## The chain is a journal -/

variable {E : Env}

variable (hz : ∀ h, E.checkpoints.isInCheckpointZone h = false)
include hz

theorem spent_toEntry (txs : List ChainTx) :
    Journal.spent (txs.map ChainTx.toEntry) = ((checkedInputs E txs).map outpoint).map fun o => (o.1, o.2.toNat) := by
  unfold checkedInputs Journal.spent
  simp only [hz, Bool.not_false, filter_true, flatMap_map, map_flatMap, List.map_map]
  rfl

variable {txs : List ChainTx}

theorem spent_toEntry_nodup
    (h : ((checkedInputs E txs).map outpoint).Nodup) : (Journal.spent (txs.map ChainTx.toEntry)).Nodup := by
  rw [spent_toEntry hz]
  refine h.map fun o o' e => ?_
  obtain ⟨h1, h2⟩ := Prod.mk.inj e
  exact Prod.ext h1 (UInt32.toNat_inj.mp h2)

variable {c : ChainTx}

omit hz

theorem RefersTo.created {i : PqInput} {out : TransactionOutput} (h : RefersTo txs i c out) :
    ((i.prevTxid, i.prevOutIndex.toNat), out) ∈ Journal.created (txs.map ChainTx.toEntry) :=
  Journal.mem_created.mpr ⟨c.toEntry, List.mem_map.mpr ⟨c, h.mem, rfl⟩, h.hash.symm, h.output⟩

theorem checkedInputs_subset : ∀ i ∈ checkedInputs E txs, i ∈ checkedInputs E (txs ++ [c]) := by
  intro i hi
  rw [checkedInputs_append]
  exact mem_append_left _ hi

include hz in
theorem CheckedChain.journal (h : CheckedChain E txs)
    (hinj : CommitsDistinct E.P (checkedInputs E txs)) : Journal.Valid (txs.map ChainTx.toEntry) := by
  induction h with
  | nil => exact .nil
  | @snoc txs c db hchain hd hle hc ih =>
    have hold := ih fun i hi j hj => hinj i (checkedInputs_subset i hi) j (checkedInputs_subset j hj)
    have hnodup := spent_toEntry_nodup hz ((CheckedChain.snoc hchain hd hle hc).nodup hinj)
    rw [map_append, map_singleton, Journal.spent_append] at hnodup
    obtain ⟨-, hnd, hdisj⟩ := nodup_append.mp hnodup
    rw [map_append, map_singleton]
    refine .snoc hold ⟨?_, hnd, ?_, fun k hk hk' => hdisj k hk' k hk rfl⟩
    · intro e he heq
      obtain ⟨c', hc', rfl⟩ := List.mem_map.mp he
      have hidx : db.txIndex c'.hash = some (c'.height, c'.slot) := hd.index.mpr ⟨c'.tx, hc'⟩
      have heq : c'.hash = c.hash := heq
      rw [heq, hc.fresh.id] at hidx
      cases hidx
    · intro k hk
      obtain ⟨i, hi, rfl⟩ := List.mem_map.mp hk
      rcases hc.inputs (hz _) with hnil | ⟨fee, hok⟩
      · rw [hnil] at hi
        cases hi
      · obtain ⟨-, c0, out, href, -⟩ := hok.opens hd hi
        exact List.mem_map.mpr ⟨_, href.created, rfl⟩

/-! ## One transaction -/

/-- A valuation that knows the outputs of the chain. -/
def Values (txs : List ChainTx) (v : Hash × Nat → Nat) : Prop :=
  ∀ x ∈ Journal.created (txs.map ChainTx.toEntry), v x.1 = outputValue x.2

variable {v : Hash × Nat → Nat}

theorem Values.mono {txs' : List ChainTx} (h : Values (txs ++ txs') v) : Values txs v := by
  intro x hx
  refine h x ?_
  rw [map_append, Journal.created, flatMap_append, mem_append]
  exact .inl hx

theorem values_of_valid (h : Journal.Valid (txs.map ChainTx.toEntry)) : Values txs (amountAt txs) := by
  intro x hx
  have hlookup : (Journal.created (txs.map ChainTx.toEntry)).lookup x.1 = some x.2 := by
    have hnames := h.names_nodup
    generalize Journal.created (txs.map ChainTx.toEntry) = l at hx hnames
    induction l with
    | nil => cases hx
    | cons y l ih =>
      obtain ⟨k, o⟩ := y
      rw [map_cons, nodup_cons] at hnames
      rcases mem_cons.mp hx with rfl | hx
      · exact lookup_cons_self
      · have hne : x.1 ≠ k := fun e => hnames.1 (List.mem_map.mpr ⟨x, hx, e⟩)
        rw [lookup_cons, beq_false_of_ne hne]
        exact ih hx hnames.2
  rw [amountAt, hlookup]
  rfl

variable {db : Db}

/-- What a transfer spends is what its inputs refer to. -/
theorem PqInputsOk.spends_value {P : Primitives} {fee : UInt64} (h : PqInputsOk P db c.tx fee) (hd : Describes P db txs)
    (hv : Values txs v) : (c.toEntry.spends.map v).sum = (c.tx.outputs.map outputValue).sum + fee.toNat := by
  have hbal := h.balance
  rw [show (c.tx.outputs.map outputValue).sum = (c.tx.outputs.map fun o => o.amount.toNat).sum from rfl, ← hbal]
  rw [ChainTx.toEntry, List.map_map]
  congr 1
  apply map_congr_left
  intro i hi
  obtain ⟨block, out, hsp⟩ := h.spendable i hi
  obtain ⟨c0, href, -⟩ := hd.refersTo hsp.referenced
  rw [Function.comp_apply, hv _ href.created, hsp.amount]
  rfl

/-- A transaction of a block gives up its fee. -/
theorem supply_tx {fee : UInt64} (hz : E.checkpoints.isInCheckpointZone c.height = false) (hd : Describes E.P db txs)
    (hc : CheckedTx E db c) (hs : c.slot ≠ 0) (hfee : blockTxFee db c.tx = some fee)
    (hvalid : Journal.Valid ((txs ++ [c]).map ChainTx.toEntry)) (hv : Values txs v) :
    supply (txs ++ [c]) + fee.toNat = supply txs ∧ givenUp v c = fee.toNat := by
  rw [map_append, map_singleton] at hvalid
  obtain ⟨hold, happ⟩ := hvalid.snoc_inv
  have htotal := Journal.total_append hold happ hv
  have hsupply : supply (txs ++ [c]) = Journal.total outputValue (txs.map ChainTx.toEntry ++ [c.toEntry]) := by
    rw [supply, map_append, map_singleton]
  obtain ⟨m, hm⟩ := hc.checked hs hz
  obtain ⟨kept, hgate⟩ := hc.gated hs
  obtain ⟨hversion, hok⟩ := TxInputsOk.of_some hm
  have hgok := GateOk.of_true hversion hgate
  have hbalance : (c.toEntry.spends.map v).sum = (c.tx.outputs.map outputValue).sum + fee.toNat := by
    cases hok with
    | transfer fee' ht hpq =>
      unfold blockTxFee at hfee
      rw [if_pos ⟨by rw [hversion]; decide, ht⟩, hpq.fee, Option.some.injEq] at hfee
      subst hfee
      exact hpq.spends_value hd hv
    | coinbase ht => exact absurd ht hgok.not_coinbase
    | freeReg ht =>
      cases hgok with
      | transfer hsem =>
        have := hsem.transfer
        rw [ht] at this
        exact absurd this (by decide)
      | freeReg _ hin hout =>
        have hfee0 : fee = 0 := by
          unfold blockTxFee at hfee
          rw [ht, if_neg (by rintro ⟨-, h⟩; exact absurd h (by decide))] at hfee
          simp only [getOutputAmount, getInputAmount, hout, map_nil, sum_nil] at hfee
          simpa using hfee.symm
        simp [ChainTx.toEntry, TransactionPrefix.pqInputs, hin, hout, hfee0]
  refine ⟨?_, ?_⟩
  · rw [hsupply, supply]
    have houts : (c.toEntry.outs.map outputValue).sum = (c.tx.outputs.map outputValue).sum := rfl
    omega
  · rw [givenUp, hbalance]
    omega

/-! ## One block -/

theorem minted_eq {b : Block} {height : Nat} (h : MinerTx b height) :
    minted b = (getOutputAmount b.baseTransaction).toNat := by
  have hover := h.overflow
  unfold checkOutsOverflow at hover
  cases hfold : foldSteps addOutMoney 0 b.baseTransaction.outputs with
  | error e =>
    rw [hfold] at hover
    cases hover
  | ok t =>
    have hsum := checkOutsOverflow_sum hfold
    simp only [UInt64.toNat_zero, Nat.zero_add] at hsum
    have hlt := t.toNat_lt
    rw [getOutputAmount, toNat_sum (by rw [List.map_map]; simp only [Function.comp_def]; omega), List.map_map]
    rfl

/-- The fees so far, as what the transactions so far have given up. -/
def FeesAre (before : Nat) (start all : List ChainTx) (v : Hash × Nat → Nat) (txs : List ChainTx) (fees : UInt64) :
    Prop :=
  txs <+: all → ∃ new, txs = start ++ new ∧
    supply txs + (new.map (givenUp v)).sum = before ∧ fees = UInt64.ofNat (new.map (givenUp v)).sum

variable {clock : Nat} {sb : StoredBlock}

include hz

/-- A block adds its coinbase to the supply and takes its fees out of it; the fees
that were summed up are those. -/
theorem Pushed.supply {db' : Db} (h : Pushed E clock db sb db')
    (hwf : db.Wf) (hle : ∀ c ∈ txs, c.height ≤ db.getChainHeight) (hd : Describes E.P db txs)
    (hvalid : Journal.Valid ((txs ++ addedTxs E.P db sb).map ChainTx.toEntry))
    (hv : Values (txs ++ addedTxs E.P db sb) v) :
    ∃ (now : Nat) (alt : Hash → Option BlockEntry) (prevalidated : Option Hash) (s : BlockScan)
      (difficulty reward emissionChange : UInt64),
      PushOk E now alt prevalidated db sb.block (E.prims.getBlockHash sb.block) sb.txs s difficulty reward
        emissionChange ∧ sb.entry.alreadyGeneratedCoins = db.getCoinsInCirculation + emissionChange ∧
      ∃ fees, fees = (((addedTxs E.P db sb).tail).map (givenUp v)).sum ∧
        s.feeSummary = UInt64.ofNat fees ∧
        L3.supply (txs ++ addedTxs E.P db sb) + fees =
          L3.supply txs + minted sb.block := by
  have hblock : addedTxs E.P db sb =
      ⟨db.getChainHeight, 0, getObjectHash E.P sb.block.baseTransaction, sb.block.baseTransaction⟩ ::
        (addedTxs E.P db sb).tail := rfl
  obtain ⟨now, alt, pre, s, difficulty, reward, emission, hok, hentry, hfees, -⟩ := h.induction
    (motive := FeesAre (L3.supply txs + minted sb.block)
      (txs ++ [⟨db.getChainHeight, 0, getObjectHash E.P sb.block.baseTransaction, sb.block.baseTransaction⟩])
      (txs ++ addedTxs E.P db sb) v) hwf hle hd (by
      -- the coinbase spends nothing
      rintro c rfl hcheck hpre
      refine ⟨[], by simp, ?_, by simp⟩
      obtain ⟨hold, happ⟩ := Journal.Valid.snoc_inv (by
        have := hvalid
        rw [hblock, append_cons, map_append, map_append, map_singleton] at this
        exact this.of_append)
      have htotal := Journal.total_append hold happ hv.mono
      have hspends : (ChainTx.toEntry ⟨db.getChainHeight, 0, getObjectHash E.P sb.block.baseTransaction,
          sb.block.baseTransaction⟩).spends = [] := by
        simp only [ChainTx.toEntry, map_eq_nil_iff]
        exact hcheck.coinbase rfl
      rw [hspends] at htotal
      rw [L3.supply, map_append, map_singleton]
      simpa [L3.supply, minted, ChainTx.toEntry] using htotal) (by
      rintro d cur c fees fee hdesc - hcheck hs - hfee hcur hpre
      obtain ⟨post, hpost⟩ := hpre
      obtain ⟨new, rfl, hsum, hfees⟩ := hcur ⟨[c] ++ post, by rw [← append_assoc, hpost]⟩
      rw [← hpost] at hvalid hv
      rw [map_append] at hvalid
      rw [append_assoc] at hv
      obtain ⟨hdrop, hgive⟩ := supply_tx (hz _) hdesc hcheck hs hfee hvalid.of_append hv.mono
      refine ⟨new ++ [c], by simp, ?_, ?_⟩
      · rw [map_append, sum_append, map_singleton, sum_singleton, hgive]
        omega
      · rw [map_append, sum_append, map_singleton, sum_singleton, hgive, hfees, ofNat_add, UInt64.ofNat_toNat])
  obtain ⟨new, hnew, hsum, hfees⟩ := hfees (prefix_refl _)
  have htail : (addedTxs E.P db sb).tail = new := by
    rw [hblock, append_cons, append_cancel_left_eq] at hnew
    rw [hnew]
  exact ⟨now, alt, pre, s, difficulty, reward, emission, hok, hentry, _, rfl, by rw [hfees, htail],
    by rw [htail, ← hsum]⟩

omit hz in
/-- The two ways of writing a block's effect on the coins are the same word. -/
theorem emission_balance {s s' fees base kept : UInt64} (h : s' + fees = s + (base + kept)) :
    s + (base - (fees - kept)) = s' := by
  grind

/-- The coins in circulation move with the supply, and the base reward bounds what is
minted. -/
theorem Pushed.coins {db' : Db} (h : Pushed E clock db sb db')
    (hpos : 0 < db.getChainHeight) (hwf : db.Wf) (hle : ∀ c ∈ txs, c.height ≤ db.getChainHeight)
    (hd : Describes E.P db txs)
    (hvalid : Journal.Valid ((txs ++ addedTxs E.P db sb).map ChainTx.toEntry))
    (hv : Values (txs ++ addedTxs E.P db sb) v)
    (hcoins : db.getCoinsInCirculation = UInt64.ofNat (L3.supply txs)) :
    sb.entry.alreadyGeneratedCoins =
        UInt64.ofNat (L3.supply (txs ++ addedTxs E.P db sb)) ∧
      minted sb.block ≤ (calculateReward db.getCoinsInCirculation).toNat +
        (((addedTxs E.P db sb).tail).map (givenUp v)).sum := by
  obtain ⟨now, alt, pre, s, difficulty, reward, emission, hok, hentry, fees, hfees, hsummary, hsum⟩ :=
    h.supply hz hwf hle hd hvalid hv
  have hmint := minted_eq (MinerTx.of_true hok.miner)
  have hreward := hok.reward
  unfold validateMinerTransaction at hreward
  dsimp only at hreward
  rw [if_neg (by omega)] at hreward
  split at hreward
  · cases hreward
  · rename_i r e hblock
    split at hreward
    · rename_i hminer
      simp only [Option.some.injEq, Prod.mk.injEq] at hreward
      obtain ⟨rfl, rfl⟩ := hreward
      have hmedian : medianValue (db.getLastNBlocksSizes rewardBlocksWindow) < 2 ^ 32 := by
        refine medianValue_lt (by decide) fun x hx => ?_
        obtain ⟨entry, -, rfl⟩ := List.mem_map.mp hx
        exact entry.blockCumulativeSize.toNat_lt
      obtain ⟨base, kept, hbase, hkept, hr, hem⟩ := getBlockReward_some hmedian hblock
      rw [← hfees]
      have hle1 : (UInt64.ofNat fees).toNat ≤ fees := by
        rw [toNat_ofNat']
        exact Nat.mod_le _ _
      refine ⟨?_, ?_⟩
      · rw [hentry, hcoins, hem]
        have hmint' : UInt64.ofNat (minted sb.block) = base + kept := by
          rw [hmint, hminer, hr, UInt64.ofNat_toNat]
        refine emission_balance ?_
        rw [hsummary, ← ofNat_add, hsum, ofNat_add, hmint']
      · rw [hmint, hminer, hr, UInt64.toNat_add]
        rw [hsummary] at hkept
        have := Nat.mod_le (base.toNat + kept.toNat) (2 ^ 64)
        omega
    · cases hreward

omit hz

theorem writeStored_coins (P : Primitives) (db : Db) (sb : StoredBlock) :
    (writeStored P db sb).getCoinsInCirculation = sb.entry.alreadyGeneratedCoins := by
  unfold Db.getCoinsInCirculation Db.getBlockMeta
  rw [writeStored_getChainHeight, if_neg (by omega), Nat.add_sub_cancel, writeStored_metas, Db.getChainHeight,
    getElem?_concat_length]
  rfl

/-! ## The whole chain -/

variable {blocks : List StoredBlock}

theorem chainTxs_heights (h : Built E clock blocks db) : ∀ c ∈ chainTxs E.P blocks, c.height ≤ db.getChainHeight := by
  intro c hc
  have := mem_chainTxsFrom_height hc
  rw [h.length]
  omega

/-- Genesis: the coinbase is all there is. -/
theorem Pushed.genesis_coins (ht : sb.txs = []) (h : Pushed E clock .empty sb db) :
    db.getCoinsInCirculation = UInt64.ofNat (L3.supply (chainTxs E.P [sb])) := by
  have hnone : ∀ c ∈ ([] : List ChainTx), c.height ≤ Db.empty.getChainHeight := by simp
  obtain ⟨_, _, _, s, _, _, emission, hok, hentry, -, -⟩ := h.induction (motive := fun _ _ => True)
    .empty hnone (.empty E.P) (fun _ _ _ => trivial) (fun _ _ _ _ _ _ _ _ _ _ _ _ => trivial)
  have hreward := hok.reward
  unfold validateMinerTransaction at hreward
  rw [if_pos (by rfl), Option.some.injEq, Prod.mk.injEq] at hreward
  have hminer := MinerTx.of_true hok.miner
  have hsupply : L3.supply (chainTxs E.P [sb]) = minted sb.block := by
    simp only [chainTxs, chainTxsFrom, StoredBlock.transactions, blockTxHashes, ht, zip_cons_cons,
      zip_nil_right, blockTxs, append_nil, L3.supply, map_cons, map_nil]
    simp [Journal.total, Journal.unspent, Journal.spent, Journal.created, ChainTx.toEntry, hminer.pqInputs,
      Journal.outsFrom_values, minted]
  rw [h.written, writeStored_coins, hentry, hsupply, minted_eq hminer, UInt64.ofNat_toNat, ← hreward.2]
  exact UInt64.zero_add _

include hz in
theorem Built.coins (h : Built E clock blocks db)
    (hinj : CommitsDistinct E.P (checkedInputs E (chainTxs E.P blocks))) :
    db.getCoinsInCirculation = UInt64.ofNat (L3.supply (chainTxs E.P blocks)) := by
  induction h with
  | genesis ht hp => exact hp.genesis_coins ht
  | @push blocks db db' sb hb hp ih =>
    have hchecked := (Built.push hb hp).checked.1
    have hsub : ∀ i ∈ checkedInputs E (chainTxs E.P blocks), i ∈ checkedInputs E (chainTxs E.P (blocks ++ [sb])) := by
      intro i hi
      rw [chainTxs_append, checkedInputs, filter_append, flatMap_append]
      exact mem_append_left _ hi
    have hcoins := ih fun i hi j hj => hinj i (hsub i hi) j (hsub j hj)
    have hvalid := hchecked.journal hz hinj
    have hvalues := values_of_valid hvalid
    rw [chainTxs_append, ← hb.length] at hvalid hvalues ⊢
    rw [hp.written, writeStored_coins]
    exact (hp.coins hz hb.pos hb.wf (chainTxs_heights hb) hb.checked.2 hvalid hvalues hcoins).1

/-- The store before any block but the first. -/
theorem Built.split {rest : List StoredBlock} (h : Built E clock (blocks ++ sb :: rest) db) (hne : blocks ≠ []) :
    ∃ db0 db1, Built E clock blocks db0 ∧ Pushed E clock db0 sb db1 := by
  induction rest using List.reverseRecOn generalizing db with
  | nil =>
    generalize hl : blocks ++ [sb] = l at h
    cases h with
    | @genesis sb' _ _ _ =>
      obtain ⟨rfl, -⟩ := append_inj' (show blocks ++ [sb] = [] ++ [sb'] from hl) rfl
      exact absurd rfl hne
    | push hb hp =>
      obtain ⟨rfl, he⟩ := append_inj' hl rfl
      obtain rfl := singleton_inj.mp he
      exact ⟨_, _, hb, hp⟩
  | append_singleton rest last ih =>
    generalize hl : blocks ++ sb :: (rest ++ [last]) = l at h
    rw [← cons_append, ← append_assoc] at hl
    cases h with
    | @genesis sb' _ _ _ =>
      have hlen := congrArg List.length hl
      simp only [length_append, length_cons, length_nil] at hlen
      omega
    | push hb hp =>
      obtain ⟨rfl, -⟩ := append_inj' hl rfl
      exact ih hb

/-- The coins recorded at the tip are the sum of the unspent outputs, and no block
mints more than the base reward and what its transactions give up. -/
theorem supply_conserved {E : Env} (hz : ∀ h, E.checkpoints.isInCheckpointZone h = false) {db : Db}
    (h : (ledgerLts E).Reachable db) (hinj : CommitsDistinct E.P (checkedInputs E (chainTxs E.P db.storedBlocks)))
    (hlt : supply (chainTxs E.P db.storedBlocks) < 2 ^ 64) :
    db.getCoinsInCirculation.toNat = supply (chainTxs E.P db.storedBlocks) ∧
      ∀ blocks sb rest, db.storedBlocks = blocks ++ sb :: rest → blocks ≠ [] →
        minted sb.block ≤ (calculateReward (replay E.P blocks).getCoinsInCirculation).toNat +
          (((blockTxs blocks.length 0 (sb.transactions E.P)).tail).map
            (givenUp (amountAt (chainTxs E.P db.storedBlocks)))).sum := by
  obtain ⟨clock, hb⟩ := ledger_built h
  refine ⟨?_, ?_⟩
  · rw [hb.coins hz hinj, toNat_ofNat', Nat.mod_eq_of_lt hlt]
  · intro blocks sb rest hblocks hne
    have hvalid := hb.checked.1.journal hz hinj
    have hvalues := values_of_valid hvalid
    have hchain : chainTxs E.P db.storedBlocks = chainTxs E.P blocks ++
        (blockTxs blocks.length 0 (sb.transactions E.P) ++ chainTxsFrom E.P (blocks.length + 1) rest) := by
      rw [hblocks, chainTxs, chainTxsFrom_append, Nat.zero_add]
      rfl
    obtain ⟨db0, db1, hb0, hp⟩ := Built.split (hblocks ▸ hb) hne
    have hcoins := hb0.coins hz fun i hi j hj => by
      have hsub : ∀ k ∈ checkedInputs E (chainTxs E.P blocks), k ∈ checkedInputs E (chainTxs E.P db.storedBlocks) := by
        intro k hk
        rw [hchain, checkedInputs, filter_append, flatMap_append]
        exact mem_append_left _ hk
      exact hinj i (hsub i hi) j (hsub j hj)
    rw [hchain, ← append_assoc, map_append] at hvalid
    have hvalues' : Values (chainTxs E.P blocks ++ blockTxs blocks.length 0 (sb.transactions E.P))
        (amountAt (chainTxs E.P db.storedBlocks)) := by
      generalize amountAt (chainTxs E.P db.storedBlocks) = v at hvalues
      rw [hchain, ← append_assoc] at hvalues
      exact hvalues.mono
    rw [← hb0.replay, ← hb0.length]
    rw [← hb0.length] at hvalid hvalues'
    exact (hp.coins hz hb0.pos hb0.wf (chainTxs_heights hb0) hb0.checked.2 hvalid.of_append hvalues' hcoins).2

theorem supply_conserved_spendGenesis :
    ∃ db, (ledgerLts (toyEnv .none)).Reachable db ∧
      supply (chainTxs (toyEnv .none).P db.storedBlocks) = 9010 ∧ db.getCoinsInCirculation.toNat = 9010 := by
  obtain ⟨db, hdb, hsupply, hinj⟩ := okAnd_eq_true
    (p := fun db : Db => supply (chainTxs (toyEnv .none).P db.storedBlocks) = 9010 ∧ CommitsDistinct (toyEnv .none).P
        (checkedInputs (toyEnv .none) (chainTxs (toyEnv .none).P db.storedBlocks)))
    (x := pushAll (toyEnv .none) spendGenesis) (by decide +kernel)
  have hreach := pushAll_reachable rfl (by decide +kernel) hdb
  refine ⟨db, hreach, hsupply, ?_⟩
  rw [(supply_conserved (fun _ => rfl) hreach hinj (by rw [hsupply]; decide)).1, hsupply]

end Discrete.L3
