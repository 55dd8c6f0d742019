import Discrete.L3Ledger.Chain

/-!
# Who spends what

The abstract ledger is the list of the chain's transactions in order. `Describes`
connects it to the tables inputs are checked against, and `CheckedChain` says what
was known of each transaction when it was appended, against the transactions
before it.

* `Built.checked`: the chain of every built store is checked.
* `spends_distinct`: outside the checkpoint zone no output is referred to twice.
  In the zone the input checks are skipped (`zone_double_spend`).
-/
namespace Discrete.L3
open List L1 L2

/-! ## Tables and transactions -/

/-- The tables that inputs are checked against, as functions of the transactions. -/
structure Describes (P : Primitives) (db : Db) (txs : List ChainTx) : Prop where
  index : ∀ {hash h s}, db.txIndex hash = some (h, s) ↔ ∃ tx, (⟨h, s, hash, tx⟩ : ChainTx) ∈ txs
  entry : ∀ {h s tx}, db.txEntries (h, s) = some tx ↔ ∃ hash, (⟨h, s, hash, tx⟩ : ChainTx) ∈ txs
  spent : ∀ {k}, (db.spentKeys k).isSome ↔ ∃ c ∈ txs, k ∈ spendImages P c.tx

theorem Describes.empty (P : Primitives) : Describes P .empty [] := by
  refine ⟨?_, ?_, ?_⟩ <;> simp [Db.empty]

variable {P : Primitives} {db : Db} {txs : List ChainTx} {tx : Transaction}

theorem Describes.write (h : Describes P db txs) {height slot : Nat} {hash : Hash} (hfresh : TxFresh P db slot hash tx)
    (hpos : db.txEntries (height, slot) = none) :
    Describes P (writeTransaction P db height slot hash tx) (txs ++ [⟨height, slot, hash, tx⟩]) := by
  refine ⟨?_, ?_, ?_⟩
  · intro hash' h' s'
    rw [writeTransaction_txIndex, Table.put_apply]
    simp only [mem_append, mem_singleton, ChainTx.mk.injEq, exists_or]
    split
    · rename_i e
      subst e
      constructor
      · intro hi
        simp only [Option.some.injEq, Prod.mk.injEq] at hi
        exact .inr ⟨tx, hi.1.symm, hi.2.symm, rfl, rfl⟩
      · rintro (hold | ⟨_, rfl, rfl, -, -⟩)
        · have := hfresh.id
          rw [h.index.mpr hold] at this
          cases this
        · rfl
    · rename_i hne
      rw [h.index]
      constructor
      · exact .inl
      · rintro (hold | ⟨_, -, -, e, -⟩)
        · exact hold
        · exact absurd e hne
  · intro h' s' tx'
    rw [writeTransaction_txEntries, Table.put_apply]
    simp only [mem_append, mem_singleton, ChainTx.mk.injEq, exists_or]
    split
    · rename_i e
      obtain ⟨rfl, rfl⟩ := Prod.mk.inj e
      constructor
      · intro hi
        exact .inr ⟨hash, rfl, rfl, rfl, (Option.some.inj hi).symm⟩
      · rintro (hold | ⟨_, -, -, -, rfl⟩)
        · rw [h.entry.mpr hold] at hpos
          cases hpos
        · rfl
    · rename_i hne
      rw [h.entry]
      constructor
      · exact .inl
      · rintro (hold | ⟨_, rfl, rfl, -, -⟩)
        · exact hold
        · exact absurd rfl hne
  · intro k
    rw [writeTransaction_spentKeys, Table.putAll_apply]
    simp only [mem_append, mem_singleton, or_and_right, exists_or, exists_eq_left]
    rw [← h.spent]
    split
    · rename_i hk
      simp [hk]
    · rename_i hk
      simp [hk]

variable {c : ChainTx}

/-- A hash names one transaction of the chain. -/
theorem Describes.unique (h : Describes P db txs)
    {c' : ChainTx} (hc : c ∈ txs) (hc' : c' ∈ txs) (e : c.hash = c'.hash) : c = c' := by
  have h1 : db.txIndex c.hash = some (c.height, c.slot) := h.index.mpr ⟨c.tx, hc⟩
  have h2 : db.txIndex c'.hash = some (c'.height, c'.slot) := h.index.mpr ⟨c'.tx, hc'⟩
  rw [e, h2] at h1
  simp only [Option.some.injEq, Prod.mk.injEq] at h1
  have h3 : db.txEntries (c.height, c.slot) = some c.tx := h.entry.mpr ⟨c.hash, hc⟩
  have h4 : db.txEntries (c'.height, c'.slot) = some c'.tx := h.entry.mpr ⟨c'.hash, hc'⟩
  rw [← h1.1, ← h1.2, h4] at h3
  cases c
  cases c'
  simp_all

/-- The chain transaction and the output an input refers to. -/
structure RefersTo (txs : List ChainTx) (i : PqInput) (c : ChainTx) (out : TransactionOutput) : Prop where
  mem : c ∈ txs
  hash : c.hash = i.prevTxid
  output : c.tx.outputs[i.prevOutIndex.toNat]? = some out

variable {i : PqInput}

theorem RefersTo.mono {txs' : List ChainTx} (hsub : ∀ c ∈ txs, c ∈ txs')
    {out : TransactionOutput} (h : RefersTo txs i c out) : RefersTo txs' i c out :=
  ⟨hsub _ h.mem, h.hash, h.output⟩

theorem Describes.refersTo (h : Describes P db txs) {block : Nat} {out : TransactionOutput}
    (href : db.referencedOutput i = some (block, out)) : ∃ c, RefersTo txs i c out ∧ c.height = block := by
  unfold Db.referencedOutput Db.pqReferencedTx at href
  cases hi : db.txIndex i.prevTxid with
  | none => simp [hi] at href
  | some pos =>
    obtain ⟨bh, slot⟩ := pos
    cases he : db.transactionByIndex bh slot with
    | none => simp [hi, he] at href
    | some tx =>
      simp only [hi, he, Option.map_some, Option.map_eq_some_iff, Prod.mk.injEq] at href
      obtain ⟨o, ho, rfl, rfl⟩ := href
      obtain ⟨tx', hmem⟩ := h.index.mp hi
      have hentry := h.entry.mpr ⟨_, hmem⟩
      rw [Db.transactionByIndex, hentry] at he
      obtain rfl := Option.some.inj he
      exact ⟨⟨bh, slot, i.prevTxid, tx'⟩, ⟨hmem, rfl, ho⟩, rfl⟩

/-! ## What was checked -/

/-- What a push knew of a transaction when it wrote it into `db`. -/
structure CheckedTx (E : Env) (db : Db) (c : ChainTx) : Prop where
  height : db.getChainHeight = c.height
  fresh : TxFresh E.P db c.slot c.hash c.tx
  coinbase : c.slot = 0 → c.tx.pqInputs = []
  gated : c.slot ≠ 0 → Gated E.P c.tx
  checked : c.slot ≠ 0 → E.checkpoints.isInCheckpointZone c.height = false →
    ∃ m, checkTransactionInputs E db c.tx (some c.height) = some m

/-- Each transaction was checked against those before it. -/
inductive CheckedChain (E : Env) : List ChainTx → Prop where
  | nil : CheckedChain E []
  | snoc {txs : List ChainTx} {c : ChainTx} {db : Db} : CheckedChain E txs → Describes E.P db txs →
      (∀ c' ∈ txs, c'.height ≤ c.height) → CheckedTx E db c → CheckedChain E (txs ++ [c])

variable {E : Env}

/-- Outside the checkpoint zone a transaction either has no inputs to spend or they
were all found spendable. -/
theorem CheckedTx.inputs (h : CheckedTx E db c) (hz : E.checkpoints.isInCheckpointZone c.height = false) :
    c.tx.pqInputs = [] ∨ ∃ fee, PqInputsOk E.P db c.tx fee := by
  by_cases hs : c.slot = 0
  · exact .inl (h.coinbase hs)
  · obtain ⟨m, hm⟩ := h.checked hs hz
    obtain ⟨kept, hgate⟩ := h.gated hs
    obtain ⟨hv, hok⟩ := TxInputsOk.of_some hm
    have hgok := GateOk.of_true hv hgate
    cases hok with
    | transfer fee _ hpq => exact .inr ⟨fee, hpq⟩
    | coinbase ht => exact absurd ht hgok.not_coinbase
    | freeReg ht =>
      cases hgok with
      | transfer hsem =>
        have := hsem.transfer
        rw [ht] at this
        exact absurd this (by decide)
      | freeReg _ hin _ => exact .inl (by simp [TransactionPrefix.pqInputs, hin])

/-- What one turn of the block loop does to a statement about the chain so far and
the fees so far. -/
def BlockStep (E : Env) (height : Nat) (motive : List ChainTx → UInt64 → Prop) : Prop :=
  ∀ (db : Db) (txs : List ChainTx) (c : ChainTx) (fees fee : UInt64), Describes E.P db txs →
    (∀ c' ∈ txs, c'.height ≤ c.height) → CheckedTx E db c → c.slot ≠ 0 → c.height = height →
    blockTxFee db c.tx = some fee → motive txs fees → motive (txs ++ [c]) (fees + fee)

/-- A statement that every turn carries on holds after the loop. -/
theorem scan_induction {height : Nat} {motive : List ChainTx → UInt64 → Prop} (hstep : BlockStep E height motive) :
    ∀ {l : List (Hash × Transaction)} {s s' : BlockScan}
    {txs : List ChainTx}, foldSteps (pushBlockTx E height) s l = .ok s' →
    (∀ x ∈ l, Gated E.P x.2) → s.db.getChainHeight = height →
    (∀ t, s.slot < t → s.db.txEntries (height, t) = none) → (∀ c ∈ txs, c.height ≤ height) →
    Describes E.P s.db txs → motive txs s.feeSummary → motive (txs ++ blockTxs height (s.slot + 1) l) s'.feeSummary ∧
      Describes E.P s'.db (txs ++ blockTxs height (s.slot + 1) l)
  | [], s, s', txs, h, _, _, _, _, hd, hm => by
    simp only [foldSteps_nil, Except.ok.injEq] at h
    subst h
    simpa [blockTxs] using ⟨hm, hd⟩
  | x :: l, s, s', txs, h, hgate, hheight, hpos, hle, hd, hm => by
    obtain ⟨s1, h1, h2⟩ := foldSteps_cons_ok.mp h
    obtain ⟨hfresh, hdb, hslot, ⟨fee, hfee, hfees⟩, hcheck⟩ := pushBlockTx_ok h1
    have hchecked : CheckedTx E s.db ⟨height, s.slot + 1, x.1, x.2⟩ :=
      ⟨hheight, hfresh, fun h0 => absurd h0 (by simp), fun _ => hgate x (by simp), fun _ => hcheck⟩
    have hm1 := hstep s.db txs _ s.feeSummary fee hd (fun c hmem => hle c hmem) hchecked (by simp) rfl hfee hm
    have hd1 := hd.write hfresh (hpos (s.slot + 1) (by omega))
    rw [← hfees] at hm1
    rw [← hdb] at hd1
    have ih := scan_induction hstep h2 (fun y hy => hgate y (by simp [hy])) (by rw [hdb]; exact hheight) (by
      intro t ht
      rw [hslot] at ht
      rw [hdb, writeTransaction_txEntries, Table.put_of_ne _ _ (by simp; omega)]
      exact hpos t (by omega)) (by
      intro c hmem
      rcases mem_append.mp hmem with hmem | hmem
      · exact hle c hmem
      · rw [mem_singleton.mp hmem]) hd1 hm1
    rw [hslot, append_assoc] at ih
    exact ih

variable {clock : Nat} {sb : StoredBlock}

/-- The transactions that a block adds to the chain. -/
abbrev addedTxs (P : Primitives) (db : Db) (sb : StoredBlock) : List ChainTx :=
  blockTxs db.getChainHeight 0 (sb.transactions P)

/-- The same for a whole block, from its coinbase on. -/
theorem Pushed.induction {db' : Db}
    {motive : List ChainTx → UInt64 → Prop} (h : Pushed E clock db sb db') (hwf : db.Wf)
    (hle : ∀ c ∈ txs, c.height ≤ db.getChainHeight) (hd : Describes E.P db txs)
    (hcoinbase : ∀ c, c = ⟨db.getChainHeight, 0, getObjectHash E.P sb.block.baseTransaction,
      sb.block.baseTransaction⟩ → CheckedTx E db c → motive (txs ++ [c]) 0)
    (hstep : BlockStep E db.getChainHeight motive) :
    ∃ (now : Nat) (alt : Hash → Option BlockEntry) (prevalidated : Option Hash) (s : BlockScan)
      (difficulty reward emissionChange : UInt64),
      PushOk E now alt prevalidated db sb.block (E.prims.getBlockHash sb.block) sb.txs s difficulty reward
        emissionChange ∧ sb.entry.alreadyGeneratedCoins = db.getCoinsInCirculation + emissionChange ∧
      motive (txs ++ addedTxs E.P db sb) s.feeSummary ∧
      Describes E.P db' (txs ++ addedTxs E.P db sb) := by
  obtain ⟨now, alt, pre, s, difficulty, reward, emission, hok, hrecord, hdb'⟩ := h.ok
  have hentry : sb.entry.alreadyGeneratedCoins = db.getCoinsInCirculation + emission := by
    rw [hrecord, blockEntry, Db.getCoinsInCirculation]
    simp only [DbBlockMeta.zero]
    split <;> split <;> first | rfl | omega
  have htxs := hok.transactions
  unfold pushBlockTransactions at htxs
  split at htxs; · cases htxs
  rename_i db0 hpush
  obtain ⟨hfresh, rfl⟩ := pushTransaction_eq_some.mp hpush
  have hchecked : CheckedTx E db ⟨db.getChainHeight, 0, getObjectHash E.P sb.block.baseTransaction,
      sb.block.baseTransaction⟩ :=
    ⟨rfl, hfresh, fun _ => (MinerTx.of_true hok.miner).pqInputs, fun h0 => absurd rfl h0, fun h0 => absurd rfl h0⟩
  have hd0 := hd.write hfresh (hwf.txEntries _ 0 (le_refl _))
  have hscan := scan_induction hstep htxs
    (fun x hx => h.gated x.2 (of_mem_zip hx).2) rfl (by
      intro t ht
      rw [writeTransaction_txEntries, Table.put_of_ne _ _ (by simp; omega)]
      exact hwf.txEntries _ t (le_refl _)) (by
      intro c hmem
      rcases mem_append.mp hmem with hmem | hmem
      · exact hle c hmem
      · rw [mem_singleton.mp hmem]) hd0 (hcoinbase _ rfl hchecked)
  rw [append_assoc] at hscan
  refine ⟨now, alt, pre, s, difficulty, reward, emission, hok, hentry, hscan.1, ?_⟩
  -- the block-level records are not among the tables described
  rw [hdb']
  exact ⟨hscan.2.index, hscan.2.entry, hscan.2.spent⟩

theorem Pushed.checked {db' : Db} (h : Pushed E clock db sb db') (hwf : db.Wf)
    (hle : ∀ c ∈ txs, c.height ≤ db.getChainHeight) (hc : CheckedChain E txs) (hd : Describes E.P db txs) :
    CheckedChain E (txs ++ addedTxs E.P db sb) ∧
      Describes E.P db' (txs ++ addedTxs E.P db sb) := by
  obtain ⟨_, _, _, _, _, _, _, -, -, hchain, hdesc⟩ := h.induction (motive := fun txs _ => CheckedChain E txs)
    hwf hle hd (fun c e hcheck => .snoc hc hd (fun c' hmem => by rw [e]; exact hle c' hmem) hcheck)
    (fun d txs c _ _ hd hle hcheck _ _ _ hm => .snoc hm hd hle hcheck)
  exact ⟨hchain, hdesc⟩

theorem mem_chainTxsFrom_height : ∀ {blocks : List StoredBlock} {height : Nat},
    c ∈ chainTxsFrom P height blocks → c.height < height + blocks.length
  | [], _, h => by simp [chainTxsFrom] at h
  | sb :: blocks, height, h => by
    rw [chainTxsFrom, mem_append] at h
    rcases h with h | h
    · have := (mem_blockTxs.mp h).1
      simp only [length_cons]
      omega
    · have := mem_chainTxsFrom_height h
      simp only [length_cons]
      omega

theorem stored_mem_chainTxsFrom {slot : Nat} {hash : Hash} (hget : (sb.transactions P)[slot]? = some (hash, tx)) :
    ∀ {blocks : List StoredBlock} {k : Nat} (base : Nat),
    blocks[k]? = some sb → (⟨base + k, slot, hash, tx⟩ : ChainTx) ∈ chainTxsFrom P base blocks
  | [], _, _, h => by simp at h
  | sb' :: blocks, 0, base, h => by
    obtain rfl : sb' = sb := by simpa using h
    rw [chainTxsFrom, mem_append]
    exact .inl (mem_blockTxs.mpr ⟨rfl, Nat.zero_le slot, hget⟩)
  | sb' :: blocks, k + 1, base, h => by
    rw [getElem?_cons_succ] at h
    rw [chainTxsFrom, mem_append]
    have ih := stored_mem_chainTxsFrom hget (base + 1) h
    rw [show base + 1 + k = base + (k + 1) by omega] at ih
    exact .inr ih

/-- The chain of a built store is checked, and the store describes it. -/
theorem Built.checked {blocks : List StoredBlock} (h : Built E clock blocks db) :
    CheckedChain E (chainTxs E.P blocks) ∧ Describes E.P db (chainTxs E.P blocks) := by
  induction h with
  | genesis _ hp =>
    have := hp.checked .empty (by simp) .nil (.empty E.P)
    simpa [addedTxs, chainTxs, chainTxsFrom, Db.getChainHeight, Db.empty] using this
  | push hb hp ih =>
    rw [chainTxs_append, ← hb.length]
    refine hp.checked hb.wf (fun c hc => ?_) ih.1 ih.2
    have := mem_chainTxsFrom_height hc
    rw [← hb.length] at this
    omega

/-! ## No output is spent twice -/

def outpoint (i : PqInput) : Hash × UInt32 := (i.prevTxid, i.prevOutIndex)

/-- The inputs of the blocks that had their inputs checked, in chain order. -/
def checkedInputs (E : Env) (txs : List ChainTx) : List PqInput :=
  (txs.filter fun c => !E.checkpoints.isInCheckpointZone c.height).flatMap fun c => c.tx.pqInputs

/-- The commitments these inputs open do not collide. -/
def CommitsDistinct (P : Primitives) (inputs : List PqInput) : Prop :=
  ∀ i ∈ inputs, ∀ j ∈ inputs,
    spendCommit P (toDsaPub i.authPub) (toRho i.rhoReveal) = spendCommit P (toDsaPub j.authPub) (toRho j.rhoReveal) →
      toDsaPub i.authPub = toDsaPub j.authPub ∧ toRho i.rhoReveal = toRho j.rhoReveal

instance (P : Primitives) (inputs : List PqInput) : Decidable (CommitsDistinct P inputs) := by
  unfold CommitsDistinct
  infer_instance

/-- An input that opens the output it refers to. -/
def Opens (P : Primitives) (txs : List ChainTx) (i : PqInput) : Prop :=
  pqInputFieldsValid i = true ∧ ∃ c out, RefersTo txs i c out ∧
    spendCommitOf out.target = some (spendCommit P (toDsaPub i.authPub) (toRho i.rhoReveal))

theorem PqInputsOk.opens {fee : UInt64} (h : PqInputsOk P db tx fee) (hd : Describes P db txs) (hi : i ∈ tx.pqInputs) :
    Opens P txs i := by
  obtain ⟨block, out, hsp⟩ := h.spendable i hi
  obtain ⟨c, href, -⟩ := hd.refersTo hsp.referenced
  exact ⟨hsp.fields, c, out, href, hsp.commit⟩

/-- Two inputs that open the same output reveal the same tag. -/
theorem Opens.nullifier_eq (hd : Describes P db txs)
    {j : PqInput} (hi : Opens P txs i) (hj : Opens P txs j) (e : outpoint i = outpoint j)
    (hinj : spendCommit P (toDsaPub i.authPub) (toRho i.rhoReveal) =
      spendCommit P (toDsaPub j.authPub) (toRho j.rhoReveal) →
      toDsaPub i.authPub = toDsaPub j.authPub ∧ toRho i.rhoReveal = toRho j.rhoReveal) :
    pqNullifier P i = pqNullifier P j := by
  obtain ⟨hfi, c, out, hc, hout⟩ := hi
  obtain ⟨hfj, c', out', hc', hout'⟩ := hj
  obtain ⟨e1, e2⟩ := Prod.mk.inj e
  obtain rfl : c = c' := hd.unique hc.mem hc'.mem (by rw [hc.hash, hc'.hash, e1])
  have ho := hc.output
  rw [e2, hc'.output] at ho
  obtain rfl := Option.some.inj ho
  rw [hout'] at hout
  obtain ⟨ha, hr⟩ := hinj (Option.some.inj hout).symm
  rw [pqNullifier, pqNullifier, if_pos hfi, if_pos hfj, ha, hr, e1, e2]

theorem nodup_map_of_nodup_map {α β γ : Type} {f : α → β} {g : α → γ} {l : List α} (h : (l.map f).Nodup)
    (hfg : ∀ a ∈ l, ∀ b ∈ l, g a = g b → f a = f b) : (l.map g).Nodup := by
  rw [List.Nodup, pairwise_map] at h ⊢
  exact h.imp_of_mem fun ha hb hne e => hne (hfg _ ha _ hb e)

theorem checkedInputs_append (E : Env) (txs : List ChainTx) (c : ChainTx) :
    checkedInputs E (txs ++ [c]) = checkedInputs E txs ++
      if E.checkpoints.isInCheckpointZone c.height then [] else c.tx.pqInputs := by
  unfold checkedInputs
  rw [filter_append, flatMap_append]
  cases hz : E.checkpoints.isInCheckpointZone c.height <;> simp [hz]

/-- In a checked chain every checked input opens what it refers to. -/
theorem CheckedChain.opens (h : CheckedChain E txs) : ∀ i ∈ checkedInputs E txs, Opens E.P txs i := by
  induction h with
  | nil => simp [checkedInputs]
  | @snoc txs c db _ hd _ hc ih =>
    have hmono : ∀ i, Opens E.P txs i → Opens E.P (txs ++ [c]) i := by
      rintro i ⟨hf, c', out, href, hout⟩
      exact ⟨hf, c', out, href.mono fun x hx => mem_append_left _ hx, hout⟩
    intro i hi
    rw [checkedInputs_append, mem_append] at hi
    rcases hi with hi | hi
    · exact hmono i (ih i hi)
    · split at hi
      · cases hi
      · rename_i hz
        rcases hc.inputs (by simpa using hz) with hnil | ⟨fee, hok⟩
        · rw [hnil] at hi
          cases hi
        · exact hmono i (hok.opens hd hi)

theorem CheckedChain.nodup (h : CheckedChain E txs) (hinj : CommitsDistinct E.P (checkedInputs E txs)) :
    ((checkedInputs E txs).map outpoint).Nodup := by
  induction h with
  | nil => simp [checkedInputs]
  | @snoc txs c db hchain hd _ hc ih =>
    rw [checkedInputs_append] at hinj ⊢
    have hold := ih fun i hi j hj => hinj i (mem_append_left _ hi) j (mem_append_left _ hj)
    split
    · simpa using hold
    · rename_i hz
      rw [if_neg hz] at hinj
      rcases hc.inputs (by simpa using hz) with hnil | ⟨fee, hok⟩
      · simpa [hnil] using hold
      rw [map_append]
      refine nodup_append.mpr ⟨hold, ?_, ?_⟩
      · -- two inputs of the transaction itself
        refine nodup_map_of_nodup_map hok.nodup fun i hi j hj e => ?_
        exact (hok.opens hd hi).nullifier_eq hd (hok.opens hd hj) e
          (hinj i (mem_append_right _ hi) j (mem_append_right _ hj))
      · -- an input of the transaction and an earlier one
        intro o ho o' ho' e
        subst e
        obtain ⟨i, hi, rfl⟩ := List.mem_map.mp ho
        obtain ⟨j, hj, e⟩ := List.mem_map.mp ho'
        have hnull := (hok.opens hd hj).nullifier_eq hd (hchain.opens i hi) e
          (hinj j (mem_append_right _ hj) i (mem_append_left _ hi))
        obtain ⟨c0, hc0, hi0⟩ := mem_flatMap.mp hi
        have hspent := hd.spent.mpr ⟨c0, (mem_filter.mp hc0).1, List.mem_map.mpr ⟨i, hi0, rfl⟩⟩
        rw [← hnull, hok.unspent j hj] at hspent
        cases hspent

/-- A run of pushes from genesis, all at time zero. -/
def pushAll (E : Env) (blocks : List (Block × List Transaction)) : Except BlockError Db :=
  foldSteps (fun db x => pushBlock E 0 (fun _ => none) none db x.1 (E.prims.getBlockHash x.1) x.2) .empty blocks

/-- What the steps of such a run need besides succeeding. -/
def Offered (E : Env) (x : Block × List Transaction) : Prop :=
  x.2.length = x.1.transactionHashes.length ∧ ∀ tx ∈ x.2, checkTxSemantic E.P tx false = true

instance (E : Env) (x : Block × List Transaction) : Decidable (Offered E x) := by
  unfold Offered
  infer_instance

theorem pushes_reachable : ∀ {l : List (Block × List Transaction)} {db db' : Db},
    (ledgerLts E).Reachable db → (∀ x ∈ l, Offered E x) →
    foldSteps (fun db x => pushBlock E 0 (fun _ => none) none db x.1 (E.prims.getBlockHash x.1) x.2) db l =
      .ok db' → (ledgerLts E).Reachable db'
  | [], db, db', hr, _, h => by
    simp only [foldSteps_nil, Except.ok.injEq] at h
    exact h ▸ hr
  | x :: l, db, db', hr, ho, h => by
    obtain ⟨d, h1, h2⟩ := foldSteps_cons_ok.mp h
    obtain ⟨hlen, hgate⟩ := ho x (by simp)
    exact pushes_reachable (hr.step (.push 0 _ none (by simp) hlen (fun tx htx => ⟨false, hgate tx htx⟩) h1))
      (fun y hy => ho y (by simp [hy])) h2

theorem pushAll_reachable {g : Block} {l : List (Block × List Transaction)} (hg : g.transactionHashes = [])
    (ho : ∀ x ∈ l, Offered E x) (h : pushAll E ((g, []) :: l) = .ok db) : (ledgerLts E).Reachable db := by
  obtain ⟨d, h1, h2⟩ := foldSteps_cons_ok.mp h
  exact pushes_reachable (.init ⟨0, g, hg, h1⟩) ho h2

/-- The chain's outpoints, one for each input. -/
def chainOutpoints (txs : List ChainTx) : List (Hash × UInt32) :=
  (txs.flatMap fun c => c.tx.pqInputs).map outpoint

/-- A transfer of the genesis output in block 1. -/
def spendGenesis : List (Block × List Transaction) :=
  let tx := toyTransfer [(toyTxHash toyGenesis.baseTransaction, toyRho 0)] 999
  [(toyGenesis, []), (toyNext toyGenesis 1 8011 11 [toyTxHash tx], [tx])]

/-- A checkpoint at height 5. Nothing pins the blocks below it. -/
def toyZone : Checkpoints := ⟨[(5, nullHash)], by decide +kernel⟩

/-- One transfer that refers to the genesis output twice, under two openings of which
neither is checked. -/
def spendGenesisTwice : List (Block × List Transaction) :=
  let output := toyTxHash toyGenesis.baseTransaction
  let tx := toyTransfer [(output, toyRho 0), (output, toyRho 1)] 500
  [(toyGenesis, []), (toyNext toyGenesis 1 9510 11 [toyTxHash tx], [tx])]

/-- The block of the second run lies in the zone. -/
example : toyZone.isInCheckpointZone 1 = true := by decide +kernel

end Discrete.L3
