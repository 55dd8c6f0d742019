import Discrete.L3Ledger.PushBlock

/-!
# Taking a block back

A push writes a block's transactions slot by slot and then its block-level
records; `removeLastBlock` takes the transactions back in the opposite order, with
conditions of its own (the coinbase registers nothing but is unregistered like the
others, entries are removed in bulk by height).

* `pushBlock_writes`: a push is `writeStored` of the block, and everything it wrote
  was new.
* `removeLastBlock_writeStored`: removing the block restores every table.
* `coinbase_registers_nothing`: why the asymmetry of the coinbase is harmless. A
  miner key and a registration do not fit one coinbase extra.
-/
namespace Discrete.L3
open List L1 L2

/-! ## A run of writes -/

/-- The transactions of a block from `slot` on, written one after the other. -/
def writeTransactions (P : Primitives) (height : Nat) : Db → Nat → List (Hash × Transaction) → Db
  | db, _, [] => db
  | db, slot, x :: l =>
    writeTransactions P height (writeTransaction P db height slot x.1 x.2) (slot + 1) l

/-- Each transaction of the run is new to the tables its predecessors leave. -/
def FreshRun (P : Primitives) (height : Nat) : Db → Nat → List (Hash × Transaction) → Prop
  | _, _, [] => True
  | db, slot, x :: l =>
    TxFresh P db slot x.1 x.2 ∧ FreshRun P height (writeTransaction P db height slot x.1 x.2) (slot + 1) l

section Frame
variable (P : Primitives) (height : Nat)

@[simp] theorem writeTransactions_metas : ∀ (l : List (Hash × Transaction)) (db : Db) (slot : Nat),
    (writeTransactions P height db slot l).metas = db.metas
  | [], _, _ => rfl
  | x :: l, db, slot => by rw [writeTransactions, writeTransactions_metas l]; rfl

@[simp] theorem writeTransactions_blockData : ∀ (l : List (Hash × Transaction)) (db : Db) (slot : Nat),
    (writeTransactions P height db slot l).blockData = db.blockData
  | [], _, _ => rfl
  | x :: l, db, slot => by rw [writeTransactions, writeTransactions_blockData l]; rfl

@[simp] theorem writeTransactions_hashHeight : ∀ (l : List (Hash × Transaction)) (db : Db) (slot : Nat),
    (writeTransactions P height db slot l).hashHeight = db.hashHeight
  | [], _, _ => rfl
  | x :: l, db, slot => by rw [writeTransactions, writeTransactions_hashHeight l]; rfl

@[simp] theorem writeTransactions_timestamps : ∀ (l : List (Hash × Transaction)) (db : Db) (slot : Nat),
    (writeTransactions P height db slot l).timestamps = db.timestamps
  | [], _, _ => rfl
  | x :: l, db, slot => by rw [writeTransactions, writeTransactions_timestamps l]; rfl

@[simp] theorem writeTransactions_genTxCount : ∀ (l : List (Hash × Transaction)) (db : Db) (slot : Nat),
    (writeTransactions P height db slot l).genTxCount = db.genTxCount
  | [], _, _ => rfl
  | x :: l, db, slot => by rw [writeTransactions, writeTransactions_genTxCount l]; rfl

@[simp] theorem writeTransactions_getChainHeight (l : List (Hash × Transaction)) (db : Db) (slot : Nat) :
    (writeTransactions P height db slot l).getChainHeight = db.getChainHeight := by
  simp [Db.getChainHeight]

/-- Where the entries of a run end up. -/
theorem writeTransactions_txEntries : ∀ (l : List (Hash × Transaction)) (db : Db) (slot h s : Nat),
    (writeTransactions P height db slot l).txEntries (h, s) =
      if h = height ∧ slot ≤ s ∧ s < slot + l.length then (l[s - slot]?).map Prod.snd
      else db.txEntries (h, s)
  | [], db, slot, h, s => by
    rw [if_neg (by simp only [length_nil]; omega)]
    rfl
  | x :: l, db, slot, h, s => by
    rw [writeTransactions, writeTransactions_txEntries l]
    simp only [writeTransaction_txEntries, Table.put_apply, Prod.mk.injEq, length_cons]
    by_cases hh : h = height
    · rcases Nat.lt_trichotomy s slot with hs | hs | hs
      · rw [if_neg (by omega), if_neg (by omega), if_neg (by omega)]
      · subst hs
        rw [if_neg (by omega), if_pos ⟨hh, rfl⟩, if_pos ⟨hh, by omega, by omega⟩]
        simp
      · obtain ⟨k, rfl⟩ : ∃ k, s = slot + 1 + k := ⟨s - (slot + 1), by omega⟩
        rw [if_neg (by omega : ¬ (h = height ∧ slot + 1 + k = slot)),
          show slot + 1 + k - (slot + 1) = k by omega, show slot + 1 + k - slot = k + 1 by omega, getElem?_cons_succ]
        by_cases hk : k < l.length
        · rw [if_pos ⟨hh, by omega, by omega⟩, if_pos ⟨hh, by omega, by omega⟩]
        · rw [if_neg (by omega), if_neg (by omega)]
    · rw [if_neg (by omega), if_neg (by omega), if_neg (by omega)]

end Frame

/-! ## Undoing a run -/

/-- Payment ids are only recorded for indexed transactions. -/
def PaymentsIndexed (db : Db) : Prop := ∀ p h, db.txIndex h = none → db.paymentIds (p, h) = none

variable {db : Db}

theorem PaymentsIndexed.write {P : Primitives} (h : PaymentsIndexed db) (height slot : Nat)
    (hash : Hash) (tx : Transaction) : PaymentsIndexed (writeTransaction P db height slot hash tx) := by
  intro p k hk
  rw [writeTransaction_txIndex, Table.put_apply] at hk
  split at hk
  · cases hk
  · rename_i hne
    simp only [writeTransaction, Table.putOpt_apply]
    rw [if_neg]
    · exact h p k hk
    · intro e
      obtain ⟨q, -, he⟩ := Option.map_eq_some_iff.mp e
      exact hne (Prod.mk.inj he).2.symm

theorem popTransaction_writeTransaction {P : Primitives} {height slot : Nat} {hash : Hash} {tx : Transaction}
    (hfresh : TxFresh P db slot hash tx) (hacct : ∀ a, getPqAccountRegistrationId P tx = some a → db.pqAcctReg a = none)
    (hpay : ∀ p, db.paymentIds (p, hash) = none) :
    popTransaction P (writeTransaction P db height slot hash tx) hash tx =
      { db with txEntries := db.txEntries.put (height, slot) tx } := by
  have hspent := Table.removeAll_putAll height hfresh.images
  have hindex := Table.remove_put (height, slot) hfresh.id
  have hpays : (db.paymentIds.putOpt ((getPaymentIdFromTxExtra tx.extra).map (·, hash)) ()).removeOpt
      ((getPaymentIdFromTxExtra tx.extra).map (·, hash)) = db.paymentIds := by
    cases getPaymentIdFromTxExtra tx.extra with
    | none => rfl
    | some p => exact Table.remove_put () (hpay p)
  have hreg : ((pushRegistration P db.pqAcctReg height slot tx).getD db.pqAcctReg).removeOpt
      (getPqAccountRegistrationId P tx) = db.pqAcctReg := by
    unfold pushRegistration
    cases ha : getPqAccountRegistrationId P tx with
    | none => split <;> rfl
    | some a =>
      have hnone := hacct a ha
      split
      · -- the coinbase: nothing was written, and there is nothing to remove
        ext1 k
        rw [Option.getD_some, Table.removeOpt_apply]
        split
        · rename_i e
          rw [← Option.some.inj e, hnone]
        · rfl
      · simp only [hnone, Option.isSome_none, Bool.false_eq_true, if_false, Option.getD_some]
        exact Table.remove_put (height, slot) hnone
  simp only [popTransaction, writeTransaction, hspent, hindex, hpays, hreg]

/-- Popping a run of fresh transactions, last first, restores all tables but the
entries, which are not looked at. -/
theorem pop_writeTransactions {P : Primitives} {height : Nat} : ∀ {l : List (Hash × Transaction)} {db : Db}
    {slot : Nat}, FreshRun P height db slot l → PaymentsIndexed db →
    (slot = 0 → ∀ x ∈ l.head?, ∀ a, getPqAccountRegistrationId P x.2 = some a → db.pqAcctReg a = none) →
    l.reverse.foldl (fun db x => popTransaction P db x.1 x.2) (writeTransactions P height db slot l) =
      { db with txEntries := (writeTransactions P height db slot l).txEntries }
  | [], _, _, _, _, _ => rfl
  | x :: l, db, slot, hfresh, hpay, hcoinbase => by
    obtain ⟨hx, hl⟩ := hfresh
    have ih := pop_writeTransactions hl (hpay.write height slot x.1 x.2) (fun h => by omega)
    have hacct : ∀ a, getPqAccountRegistrationId P x.2 = some a → db.pqAcctReg a = none := by
      by_cases hs : slot = 0
      · exact hcoinbase hs x (by simp)
      · exact hx.account hs
    have hpop := @popTransaction_writeTransaction db P height slot x.1 x.2 hx hacct
      (fun p => hpay p x.1 hx.id)
    rw [reverse_cons, foldl_append, writeTransactions, ih]
    -- `popTransaction` neither reads nor writes the entries
    have hframe : ∀ (d : Db) t, popTransaction P { d with txEntries := t } x.1 x.2 =
        { popTransaction P d x.1 x.2 with txEntries := t } := fun _ _ => rfl
    rw [foldl_cons, foldl_nil, hframe, hpop]

/-! ## Stored blocks -/

/-- A block as the database keeps it: metadata, block and the transactions of the
slots after the coinbase. -/
structure StoredBlock where
  entry : DbBlockMeta
  block : Block
  txs : List Transaction

/-- The transactions of the block by slot, under the hashes they are indexed by. -/
def StoredBlock.transactions (P : Primitives) (sb : StoredBlock) : List (Hash × Transaction) :=
  (blockTxHashes P sb.block).zip (sb.block.baseTransaction :: sb.txs)

/-- All that a push writes, without its checks. -/
def writeStored (P : Primitives) (db : Db) (sb : StoredBlock) : Db :=
  writeBlockEntry (writeTransactions P db.getChainHeight db 0 (sb.transactions P)) sb.entry sb.block

theorem writeTransactions_txIndex (P : Primitives) (height : Nat) (k : Hash) :
    ∀ (l : List (Hash × Transaction)) (db : Db) (slot : Nat),
      ((writeTransactions P height db slot l).txIndex k).isSome ↔ (db.txIndex k).isSome ∨ k ∈ l.map Prod.fst
  | [], db, slot => by simp [writeTransactions]
  | x :: l, db, slot => by
    rw [writeTransactions, writeTransactions_txIndex P height k l, writeTransaction_txIndex, Table.put_apply,
      map_cons, mem_cons]
    by_cases hk : k = x.1 <;> simp [hk]

/-- The ids of a run are new and distinct. -/
theorem FreshRun.ids {P : Primitives} {height : Nat} : ∀ {l : List (Hash × Transaction)} {db : Db} {slot : Nat},
    FreshRun P height db slot l → (∀ x ∈ l, db.txIndex x.1 = none) ∧ (l.map Prod.fst).Nodup
  | [], _, _, _ => by simp
  | x :: l, db, slot, h => by
    obtain ⟨hnew, hnd⟩ := FreshRun.ids h.2
    have hrest : ∀ y ∈ l, y.1 ≠ x.1 ∧ db.txIndex y.1 = none := by
      intro y hy
      have := hnew y hy
      rw [writeTransaction_txIndex, Table.put_apply] at this
      split at this
      · cases this
      · exact ⟨by assumption, this⟩
    refine ⟨?_, ?_⟩
    · intro y hy
      rcases mem_cons.mp hy with rfl | hy
      · exact h.1.id
      · exact (hrest y hy).2
    · rw [map_cons, nodup_cons]
      refine ⟨?_, hnd⟩
      intro hmem
      obtain ⟨y, hy, e⟩ := List.mem_map.mp hmem
      exact (hrest y hy).1 e

/-- No transaction of a run repeats a tag. -/
theorem FreshRun.nodup {P : Primitives} {height : Nat} : ∀ {l : List (Hash × Transaction)} {db : Db} {slot : Nat},
    FreshRun P height db slot l → ∀ x ∈ l, (spendImages P x.2).Nodup
  | [], _, _, _ => by simp
  | y :: l, db, slot, h => by
    intro x hx
    rcases mem_cons.mp hx with rfl | hx
    · exact h.1.nodup
    · exact FreshRun.nodup h.2 x hx

/-- A stored block fits itself: one transaction for each hash, and a count that
includes the coinbase. -/
structure StoredBlock.Sized (sb : StoredBlock) : Prop where
  hashes : sb.txs.length = sb.block.transactionHashes.length
  count : sb.entry.txCount = sb.txs.length + 1

variable {sb : StoredBlock}

theorem StoredBlock.Sized.length (h : sb.Sized) (P : Primitives) : (sb.transactions P).length = sb.entry.txCount := by
  simp [StoredBlock.transactions, blockTxHashes, h.hashes, h.count]

theorem StoredBlock.Sized.fst (h : sb.Sized) (P : Primitives) :
    (sb.transactions P).map Prod.fst = blockTxHashes P sb.block := by
  apply map_fst_zip
  simp [blockTxHashes, h.hashes]

theorem StoredBlock.Sized.snd (h : sb.Sized) (P : Primitives) :
    (sb.transactions P).map Prod.snd = sb.block.baseTransaction :: sb.txs := by
  apply map_snd_zip
  simp [blockTxHashes, h.hashes]

/-- Nothing is stored above the tip, and the secondary indices only mention what the
primary ones know. -/
structure Db.Wf (db : Db) : Prop where
  blockData : ∀ h, db.getChainHeight ≤ h → db.blockData h = none
  genTxCount : ∀ h, db.getChainHeight ≤ h → db.genTxCount h = none
  txEntries : ∀ h s, db.getChainHeight ≤ h → db.txEntries (h, s) = none
  payments : PaymentsIndexed db
  timestamps : ∀ t h, db.hashHeight h = none → db.timestamps (t, h) = none

theorem Db.Wf.empty : Db.empty.Wf := by
  exact ⟨fun _ _ => rfl, fun _ _ => rfl, fun _ _ _ => rfl, fun _ _ _ => rfl, fun _ _ _ => rfl⟩

theorem PaymentsIndexed.writes {P : Primitives} {height : Nat} {l : List (Hash × Transaction)}
    {slot : Nat} (h : PaymentsIndexed db) : PaymentsIndexed (writeTransactions P height db slot l) := by
  induction l generalizing db slot with
  | nil => exact h
  | cons x l ih => exact ih (h.write height slot x.1 x.2)

@[simp] theorem writeStored_metas (P : Primitives) (db : Db) (sb : StoredBlock) :
    (writeStored P db sb).metas = db.metas ++ [sb.entry] := by
  simp [writeStored, writeBlockEntry]

@[simp] theorem writeStored_getChainHeight (P : Primitives) (db : Db) (sb : StoredBlock) :
    (writeStored P db sb).getChainHeight = db.getChainHeight + 1 := by
  simp [Db.getChainHeight]

theorem writeStored_txEntries (P : Primitives) (db : Db) (sb : StoredBlock) (h s : Nat) :
    (writeStored P db sb).txEntries (h, s) =
      if h = db.getChainHeight ∧ s < (sb.transactions P).length then ((sb.transactions P)[s]?).map Prod.snd
      else db.txEntries (h, s) := by
  have := writeTransactions_txEntries P db.getChainHeight (sb.transactions P) db 0 h s
  simpa [writeStored, writeBlockEntry] using this

theorem writeStored_blockData (P : Primitives) (db : Db) (sb : StoredBlock) :
    (writeStored P db sb).blockData = db.blockData.put db.getChainHeight sb.block := by
  simp [writeStored, writeBlockEntry]

theorem writeStored_hashHeight (P : Primitives) (db : Db) (sb : StoredBlock) :
    (writeStored P db sb).hashHeight = db.hashHeight.put sb.entry.hash db.getChainHeight := by
  simp [writeStored, writeBlockEntry]

theorem Db.Wf.writeStored {P : Primitives} (h : db.Wf) (sb : StoredBlock) : (L3.writeStored P db sb).Wf := by
  refine ⟨?_, ?_, ?_, ?_, ?_⟩
  · intro k hk
    rw [writeStored_getChainHeight] at hk
    rw [writeStored_blockData, Table.put_of_ne _ _ (by omega)]
    exact h.blockData k (by omega)
  · intro k hk
    rw [writeStored_getChainHeight] at hk
    simp only [L3.writeStored, writeBlockEntry, writeTransactions_genTxCount, writeTransactions_getChainHeight]
    rw [Table.put_of_ne _ _ (by omega)]
    exact h.genTxCount k (by omega)
  · intro k s hk
    rw [writeStored_getChainHeight] at hk
    rw [writeStored_txEntries, if_neg (by omega)]
    exact h.txEntries k s (by omega)
  · exact h.payments.writes
  · intro t k hk
    rw [writeStored_hashHeight, Table.put_apply] at hk
    split at hk
    · cases hk
    · rename_i hne
      simp only [L3.writeStored, writeBlockEntry, writeTransactions_timestamps]
      rw [Table.put_of_ne _ _ (by rintro ⟨⟩; exact hne rfl)]
      exact h.timestamps t k hk

/-- What a push needs to have checked for the removal to be its inverse. -/
structure Undoable (P : Primitives) (db : Db) (sb : StoredBlock) : Prop where
  sized : sb.Sized
  hash : db.hashHeight sb.entry.hash = none
  fresh : FreshRun P db.getChainHeight db 0 (sb.transactions P)
  coinbase : ∀ a, getPqAccountRegistrationId P sb.block.baseTransaction = some a → db.pqAcctReg a = none

theorem mapM_range_get {α : Type} (l : List α) (f : Nat → Option α) (h : ∀ t < l.length, f t = l[t]?) :
    (List.range l.length).mapM f = some l := by
  obtain ⟨d, hd⟩ := mapM_isSome (f := f) (l := List.range l.length) (by
    intro t ht
    rw [h t (mem_range.mp ht), getElem?_eq_getElem (mem_range.mp ht)]
    rfl)
  rw [hd]
  congr 1
  apply ext_getElem?
  intro k
  have hlen := mapM_length hd
  rw [length_range] at hlen
  by_cases hk : k < l.length
  · have := mapM_getElem? hd k
    rw [getElem?_range hk, Option.bind_some] at this
    rw [this, h k hk]
  · rw [getElem?_eq_none (by omega), getElem?_eq_none (by omega)]

/-- Removing the last block restores every table. -/
theorem removeLastBlock_writeStored {P : Primitives} (hwf : db.Wf) (h : Undoable P db sb) :
    removeLastBlock P (writeStored P db sb) = db := by
  have hlen := h.sized.length P
  have hsnd := h.sized.snd P
  have hlen' : (sb.block.baseTransaction :: sb.txs).length = sb.entry.txCount := by
    rw [← hsnd, length_map, hlen]
  have hread : (List.range sb.entry.txCount).mapM
      (fun t => (writeStored P db sb).transactionByIndex db.getChainHeight t) =
        some (sb.block.baseTransaction :: sb.txs) := by
    rw [← hlen']
    apply mapM_range_get
    intro t ht
    rw [Db.transactionByIndex, writeStored_txEntries, if_pos ⟨rfl, by omega⟩, ← getElem?_map, hsnd]
  have hpop := pop_writeTransactions h.fresh hwf.payments (by
    rintro - x hx a ha
    simp only [StoredBlock.transactions, blockTxHashes, zip_cons_cons, head?_cons,
      Option.mem_def, Option.some.injEq] at hx
    subst hx
    exact h.coinbase a ha)
  -- popping commutes with the block-level records
  have hframe : ∀ (l : List (Hash × Transaction)) (d : Db),
      l.foldl (fun db x => popTransaction P db x.1 x.2) (writeBlockEntry d sb.entry sb.block) =
        writeBlockEntry (l.foldl (fun db x => popTransaction P db x.1 x.2) d) sb.entry sb.block := by
    intro l
    induction l with
    | nil => intro d; rfl
    | cons x l ih => intro d; exact ih (popTransaction P d x.1 x.2)
  have hpopped : ((sb.transactions P).reverse).foldl (fun db x => popTransaction P db x.1 x.2)
      (writeStored P db sb) = writeBlockEntry
        { db with txEntries := (writeStored P db sb).txEntries } sb.entry sb.block := by
    rw [writeStored, hframe, hpop]
    rfl
  unfold removeLastBlock
  simp only [writeStored_metas, writeStored_getChainHeight, Nat.add_sub_cancel, getLast?_append,
    getLast?_singleton, Option.some_or, writeStored_blockData, Table.put_same, hread]
  rw [show (blockTxHashes P sb.block).zip (sb.block.baseTransaction :: sb.txs) = sb.transactions P from rfl, hpopped]
  apply Db.ext
  · simp [writeBlockEntry]
  · exact Table.remove_put _ (hwf.blockData _ (le_refl _))
  · -- the entries of the block's height are exactly the ones removed
    show Table.removeAll (writeStored P db sb).txEntries _ = _
    ext1 ⟨k, s⟩
    rw [Table.removeAll_apply, writeStored_txEntries]
    by_cases hk : k = db.getChainHeight
    · have hnone : db.txEntries (k, s) = none := hwf.txEntries k s (by omega)
      split
      · rw [hnone]
      · rename_i hmem
        rw [if_neg]
        rintro ⟨-, hs⟩
        exact hmem (List.mem_map.mpr ⟨s, mem_range.mpr (by omega), by rw [hk]⟩)
    · rw [if_neg, if_neg (by omega)]
      intro hmem
      obtain ⟨t, -, ht⟩ := List.mem_map.mp hmem
      exact hk (Prod.mk.inj ht).1.symm
  · exact Table.remove_put _ h.hash
  · rfl
  · rfl
  · rfl
  · rfl
  · exact Table.remove_put _ (hwf.timestamps _ _ h.hash)
  · exact Table.remove_put _ (hwf.genTxCount _ (le_refl _))

/-! ## A push as a write -/

variable {E : Env}

/-- The run of a block's transactions is fresh and is written as it stands. -/
theorem scan_writes {height : Nat} : ∀ {l : List (Hash × Transaction)} {s s' : BlockScan},
    foldSteps (pushBlockTx E height) s l = .ok s' →
      FreshRun E.P height s.db (s.slot + 1) l ∧ s'.db = writeTransactions E.P height s.db (s.slot + 1) l
  | [], s, s', h => by
    simp only [foldSteps_nil, Except.ok.injEq] at h
    subst h
    exact ⟨trivial, rfl⟩
  | x :: l, s, s', h => by
    obtain ⟨s1, h1, h2⟩ := foldSteps_cons_ok.mp h
    obtain ⟨hfresh, hdb, hslot, -, -⟩ := pushBlockTx_ok h1
    obtain ⟨ih1, ih2⟩ := scan_writes h2
    rw [hslot, hdb] at ih1 ih2
    exact ⟨⟨hfresh, ih1⟩, ih2⟩

variable {b : Block}

theorem pushBlockTransactions_writes {txs : List Transaction} {s : BlockScan}
    (h : pushBlockTransactions E db b txs = .ok s) :
    FreshRun E.P db.getChainHeight db 0 ((blockTxHashes E.P b).zip (b.baseTransaction :: txs)) ∧
      s.db = writeTransactions E.P db.getChainHeight db 0
        ((blockTxHashes E.P b).zip (b.baseTransaction :: txs)) := by
  unfold pushBlockTransactions at h
  split at h; · cases h
  rename_i db0 hpush
  obtain ⟨hfresh, rfl⟩ := pushTransaction_eq_some.mp hpush
  obtain ⟨hrun, hdb⟩ := scan_writes h
  exact ⟨⟨hfresh, hrun⟩, hdb⟩

/-- What `prevalidate_miner_transaction` says about a coinbase. -/
structure MinerTx (b : Block) (height : Nat) : Prop where
  version : b.baseTransaction.version = transactionVersion1
  type : b.baseTransaction.txType = txCoinbase
  input : ∃ i : BaseInput, b.baseTransaction.inputs = [.base i] ∧ i.blockIndex.toNat = height
  outputs : b.baseTransaction.outputs ≠ []
  single : height ≠ 0 → b.baseTransaction.outputs.length = 1
  unlock : height ≠ 0 → b.baseTransaction.unlockHeight.toNat = height + minedMoneyUnlockWindow
  overflow : checkOutsOverflow b.baseTransaction.toTransactionPrefix = true
  extra : b.baseTransaction.extra.length ≤ maxExtraSize

theorem MinerTx.of_true {height : Nat} (h : prevalidateMinerTransaction b height = true) : MinerTx b height := by
  unfold prevalidateMinerTransaction at h
  simp only [Bool.and_eq_true, decide_eq_true_eq, Bool.or_eq_true] at h
  obtain ⟨⟨⟨⟨⟨⟨⟨⟨⟨hv, ht⟩, hin⟩, hout⟩, -⟩, -⟩, hbase⟩, hunlock⟩, hover⟩, hextra⟩ := h
  refine ⟨hv, ht, ?_, ?_, ?_, ?_, hover, hextra⟩
  · obtain ⟨t, hi⟩ := length_eq_one_iff.mp hin
    rw [hi] at hbase
    cases t with
    | base i => exact ⟨i, hi, by simpa using hbase⟩
    | pq i => simp at hbase
  · split at hout
    · simpa using hout
    · intro e
      simp [e] at hout
  · intro h0
    rw [if_neg h0] at hout
    simpa using hout
  · intro h0
    exact hunlock.resolve_left h0

theorem MinerTx.pqInputs {height : Nat} (h : MinerTx b height) : b.baseTransaction.pqInputs = [] := by
  obtain ⟨i, hi, -⟩ := h.input
  simp [TransactionPrefix.pqInputs, hi]

theorem MinerTx.getBlockHeight {height : Nat} (h : MinerTx b height) : L3.getBlockHeight b = height := by
  obtain ⟨i, hi, hheight⟩ := h.input
  rw [L3.getBlockHeight, hi]
  exact hheight

/-- Above genesis the coinbase extra holds a miner key, and a registration next to it
would not fit. -/
theorem coinbase_registers_nothing {P : Primitives} {height : Nat} (h0 : height ≠ 0) (hminer : MinerTx b height)
    (hsig : validateBlockSignature P b height = true) : getPqAccountRegistrationId P b.baseTransaction = none := by
  unfold validateBlockSignature at hsig
  rw [if_neg h0] at hsig
  split at hsig; · cases hsig
  split at hsig
  · rename_i spendPub o hkey hout
    unfold getPqAccountRegistrationId
    rw [Option.map_eq_none_iff]
    by_contra hreg
    obtain ⟨reg, hreg⟩ := Option.ne_none_iff_exists'.mp hreg
    have := minerKey_and_registration_length hkey hreg
    have := hminer.extra
    simp only [maxExtraSize, pqAuthPubSize, pqViewPubSize] at *
    omega
  · cases hsig

/-- A push is the write of a stored block, and can be undone. -/
theorem pushBlock_writes {now : Nat} {alt : Hash → Option BlockEntry} {prevalidated : Option Hash} {db' : Db}
    {id : Hash} {txs : List Transaction} (hempty : db.getChainHeight = 0 → db = .empty)
    (hlen : txs.length = b.transactionHashes.length) (h : pushBlock E now alt prevalidated db b id txs = .ok db') :
    ∃ entry, db' = writeStored E.P db ⟨entry, b, txs⟩ ∧ Undoable E.P db ⟨entry, b, txs⟩ ∧
      entry.hash = id ∧ entry.timestamp = b.timestamp := by
  obtain ⟨s, difficulty, reward, emission, hok, rfl⟩ := pushBlock_ok.mp h
  obtain ⟨hfresh, hdb⟩ := pushBlockTransactions_writes hok.transactions
  have hid := (checkBlockHeader_ok hok.header).1
  refine ⟨blockEntry db b id (txs.length + 1) s.cumulativeBlockSize difficulty emission, ?_, ?_, rfl, rfl⟩
  · rw [hdb]
    rfl
  · refine ⟨⟨hlen, rfl⟩, hid, hfresh, ?_⟩
    intro a ha
    by_cases h0 : db.getChainHeight = 0
    · rw [hempty h0]
      rfl
    · rw [coinbase_registers_nothing h0 (MinerTx.of_true hok.miner) hok.signature] at ha
      cases ha

end Discrete.L3
