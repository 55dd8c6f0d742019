import Discrete.Core.Lts
import Discrete.L3Ledger.Undo

/-!
# The main chain as a transition system

The block store under any interleaving of pushes, failed pushes and removals. A
push takes transactions that passed the relay gate, one for each hash of the
block, and a proof of work computed from the block if one is handed in: what
`loadTransactions` and the callers of `addNewBlock` provide. Genesis is pushed
into an empty store and never removed.

* `Built`: the stores that pushes alone produce, with the blocks they were
  produced from.
* `ledger_built`: removals add nothing. Every reachable store is built from the
  blocks it stores.
* `tables_replay_chain`: so every table is the replay of the stored blocks, and
  the registration of an account is its first one on the chain.
-/
namespace Discrete.L3
open List L1 L2 Codec

/-! ## The chain a database stores -/

/-- The block at `height` with its transactions, read back. -/
def Db.storedBlock (db : Db) (height : Nat) : Option StoredBlock :=
  match db.metas[height]?, db.blockData height with
  | some entry, some block =>
    ((List.range (entry.txCount - 1)).mapM fun t => db.transactionByIndex height (t + 1)).map
      fun txs => ⟨entry, block, txs⟩
  | _, _ => none

def Db.storedBlocks (db : Db) : List StoredBlock := (List.range db.getChainHeight).filterMap db.storedBlock

/-- The tables from scratch. -/
def replay (P : Primitives) (blocks : List StoredBlock) : Db := blocks.foldl (writeStored P) .empty

theorem replay_append (P : Primitives) (blocks : List StoredBlock) (sb : StoredBlock) :
    replay P (blocks ++ [sb]) = writeStored P (replay P blocks) sb := by
  simp [replay]

/-- A transaction of the chain and where it sits. -/
structure ChainTx where
  height : Nat
  slot : Nat
  hash : Hash
  tx : Transaction
  deriving DecidableEq

/-- The transactions of one block, from `slot` on. -/
def blockTxs (height : Nat) : Nat → List (Hash × Transaction) → List ChainTx
  | _, [] => []
  | slot, x :: l => ⟨height, slot, x.1, x.2⟩ :: blockTxs height (slot + 1) l

/-- All transactions of a chain whose first block has height `height`, in order. -/
def chainTxsFrom (P : Primitives) : Nat → List StoredBlock → List ChainTx
  | _, [] => []
  | height, sb :: blocks => blockTxs height 0 (sb.transactions P) ++ chainTxsFrom P (height + 1) blocks

def chainTxs (P : Primitives) (blocks : List StoredBlock) : List ChainTx := chainTxsFrom P 0 blocks

theorem chainTxsFrom_append (P : Primitives) (more : List StoredBlock) : ∀ (blocks : List StoredBlock)
    (height : Nat), chainTxsFrom P height (blocks ++ more) =
      chainTxsFrom P height blocks ++ chainTxsFrom P (height + blocks.length) more
  | [], height => rfl
  | sb :: blocks, height => by
    rw [cons_append, chainTxsFrom, chainTxsFrom_append P more blocks, chainTxsFrom, append_assoc,
      length_cons, Nat.add_assoc, Nat.add_comm 1]

theorem chainTxs_append (P : Primitives) (blocks : List StoredBlock) (sb : StoredBlock) :
    chainTxs P (blocks ++ [sb]) = chainTxs P blocks ++ blockTxs blocks.length 0 (sb.transactions P) := by
  rw [chainTxs, chainTxsFrom_append, Nat.zero_add, chainTxsFrom, chainTxsFrom, append_nil]
  rfl

/-- Where an account is registered first; a coinbase registers nothing. -/
def firstRegistration (P : Primitives) (txs : List ChainTx) (accountId : Hash) : Option (Nat × Nat) :=
  (txs.find? fun c => decide (c.slot ≠ 0 ∧ getPqAccountRegistrationId P c.tx = some accountId)).map
    fun c => (c.height, c.slot)

/-! ## Account numbers -/

/-- mirrors Blockchain.cpp:3380-3384 -/
def Db.getPqAccountNumber (db : Db) (accountId : Hash) : Option (Nat × Nat) := db.pqAcctReg accountId

/-- mirrors Blockchain.cpp:3350-3378 -/
def Db.resolvePqAccountNumber (db : Db) (blockHeight txIndex : Nat) : Option ExtraPqAccountRegistration :=
  if blockHeight ≥ db.getChainHeight ∨ txIndex > 65535 then none
  else if blockHeight + finalityDepth ≥ db.getChainHeight then none
  else
    match db.transactionByIndex blockHeight txIndex with
    | none => none
    | some tx => getPqAccountRegistrationFromExtra tx.extra

/-! ## The transition system -/

/-- The transaction passed the relay gate, from the network or inside a block. -/
def Gated (P : Primitives) (tx : Transaction) : Prop := ∃ kept, checkTxSemantic P tx kept = true

/-- A successful push of `sb` at some time up to `clock`. -/
structure Pushed (E : Env) (clock : Nat) (db : Db) (sb : StoredBlock) (db' : Db) : Prop where
  pushed : ∃ now ≤ clock, ∃ alt prevalidated,
    (∀ p ∈ prevalidated, E.prims.prevalidateBlockProofOfWork sb.block = some p) ∧
      pushBlock E now alt prevalidated db sb.block (E.prims.getBlockHash sb.block) sb.txs = .ok db'
  gated : ∀ tx ∈ sb.txs, Gated E.P tx
  written : db' = writeStored E.P db sb
  undoable : Undoable E.P db sb
  id : sb.entry.hash = E.prims.getBlockHash sb.block
  timestamp : sb.entry.timestamp = sb.block.timestamp

inductive LedgerStep (E : Env) : Db → Db → Prop where
  | push {db db' : Db} {b : Block} {txs : List Transaction} (now : Nat) (alt : Hash → Option BlockEntry)
      (prevalidated : Option Hash) :
      (∀ p ∈ prevalidated, E.prims.prevalidateBlockProofOfWork b = some p) →
      txs.length = b.transactionHashes.length → (∀ tx ∈ txs, Gated E.P tx) →
      pushBlock E now alt prevalidated db b (E.prims.getBlockHash b) txs = .ok db' → LedgerStep E db db'
  | pushFailed {db : Db} {b : Block} {txs : List Transaction} {e : BlockError} (now : Nat)
      (alt : Hash → Option BlockEntry) (prevalidated : Option Hash) :
      pushBlock E now alt prevalidated db b (E.prims.getBlockHash b) txs = .error e → LedgerStep E db db
  | pop {db : Db} : 1 < db.getChainHeight → LedgerStep E db (removeLastBlock E.P db)

/-- An empty store with a genesis block pushed into it. -/
def LedgerInit (E : Env) (db : Db) : Prop :=
  ∃ now genesis, genesis.transactionHashes = [] ∧
    pushBlock E now (fun _ => none) none .empty genesis (E.prims.getBlockHash genesis) [] = .ok db

def ledgerLts (E : Env) : Lts Db where
  Init := LedgerInit E
  Step := LedgerStep E

/-- Pushes alone, from genesis on, with the blocks pushed. -/
inductive Built (E : Env) (clock : Nat) : List StoredBlock → Db → Prop where
  | genesis {sb : StoredBlock} {db : Db} : sb.txs = [] → Pushed E clock .empty sb db → Built E clock [sb] db
  | push {blocks : List StoredBlock} {db db' : Db} {sb : StoredBlock} :
      Built E clock blocks db → Pushed E clock db sb db' → Built E clock (blocks ++ [sb]) db'

theorem Pushed.mono {E : Env} {clock clock' : Nat} {db db' : Db} {sb : StoredBlock} (hc : clock ≤ clock')
    (h : Pushed E clock db sb db') : Pushed E clock' db sb db' := by
  obtain ⟨now, hnow, alt, pre, hpre, hp⟩ := h.pushed
  exact { h with pushed := ⟨now, le_trans hnow hc, alt, pre, hpre, hp⟩ }

theorem Built.mono {E : Env} {clock clock' : Nat} (hc : clock ≤ clock') {blocks : List StoredBlock} {db : Db}
    (h : Built E clock blocks db) : Built E clock' blocks db := by
  induction h with
  | genesis ht hp => exact .genesis ht (hp.mono hc)
  | push _ hp ih => exact .push ih (hp.mono hc)

theorem Pushed.of_ok {E : Env} {now clock : Nat} (hnow : now ≤ clock) {alt : Hash → Option BlockEntry}
    {prevalidated : Option Hash} {db db' : Db} {b : Block} {txs : List Transaction}
    (hpre : ∀ p ∈ prevalidated, E.prims.prevalidateBlockProofOfWork b = some p)
    (hempty : db.getChainHeight = 0 → db = .empty) (hlen : txs.length = b.transactionHashes.length)
    (hgate : ∀ tx ∈ txs, Gated E.P tx)
    (h : pushBlock E now alt prevalidated db b (E.prims.getBlockHash b) txs = .ok db') :
    ∃ entry, Pushed E clock db ⟨entry, b, txs⟩ db' := by
  obtain ⟨entry, hw, hu, hid, hts⟩ := pushBlock_writes hempty hlen h
  exact ⟨entry, ⟨now, hnow, alt, prevalidated, hpre, h⟩, hgate, hw, hu, hid, hts⟩

/-- A push taken apart, with the record it wrote. -/
theorem Pushed.ok {E : Env} {clock : Nat} {db db' : Db} {sb : StoredBlock} (h : Pushed E clock db sb db') :
    ∃ (now : Nat) (alt : Hash → Option BlockEntry) (prevalidated : Option Hash) (s : BlockScan)
      (difficulty reward emissionChange : UInt64),
      PushOk E now alt prevalidated db sb.block (E.prims.getBlockHash sb.block) sb.txs s difficulty reward
        emissionChange ∧
      sb.entry = blockEntry db sb.block (E.prims.getBlockHash sb.block) (sb.txs.length + 1) s.cumulativeBlockSize
        difficulty emissionChange ∧ db' = writeBlockEntry s.db sb.entry sb.block := by
  obtain ⟨now, -, alt, pre, -, hp⟩ := h.pushed
  obtain ⟨s, difficulty, reward, emission, hok, hdb'⟩ := pushBlock_ok.mp hp
  have hmetas := congrArg Db.metas (h.written.symm.trans hdb')
  rw [writeStored_metas, writeBlockEntry, (pushBlockTransactions_writes hok.transactions).2,
    writeTransactions_metas, append_cancel_left_eq, singleton_inj] at hmetas
  exact ⟨now, alt, pre, s, difficulty, reward, emission, hok, hmetas, by rw [hmetas]; exact hdb'⟩

/-! ## What is built -/

section Built
variable {E : Env} {clock : Nat} {blocks : List StoredBlock} {db : Db}

variable (h : Built E clock blocks db)
include h

theorem Built.replay : db = replay E.P blocks := by
  induction h with
  | genesis _ hp => rw [hp.written]; rfl
  | push _ hp ih => rw [hp.written, replay_append, ← ih]

theorem Built.wf : db.Wf := by
  induction h with
  | genesis _ hp => rw [hp.written]; exact Db.Wf.empty.writeStored _
  | push _ hp ih => rw [hp.written]; exact ih.writeStored _

theorem Built.length : db.getChainHeight = blocks.length := by
  induction h with
  | genesis _ hp => rw [hp.written, writeStored_getChainHeight]; rfl
  | push _ hp ih => rw [hp.written, writeStored_getChainHeight, ih]; simp

theorem Built.pos : 0 < db.getChainHeight := by
  rw [h.length]
  cases h with
  | genesis => simp
  | push => simp

omit h

/-- The block just written is read back as it was written. -/
theorem storedBlock_writeStored_last {P : Primitives} {d : Db} {sb : StoredBlock} (hs : sb.Sized) :
    (writeStored P d sb).storedBlock d.getChainHeight = some sb := by
  have hsnd := hs.snd P
  have hlen := hs.length P
  have hread : (List.range sb.txs.length).mapM
      (fun t => (writeStored P d sb).transactionByIndex d.getChainHeight (t + 1)) = some sb.txs := by
    apply mapM_range_get
    intro t ht
    rw [Db.transactionByIndex, writeStored_txEntries, if_pos ⟨rfl, by rw [hlen, hs.count]; omega⟩, ← getElem?_map, hsnd]
    simp
  unfold Db.storedBlock
  rw [writeStored_metas, writeStored_blockData, Db.getChainHeight, getElem?_concat_length, Table.put_same]
  simp only [hs.count, Nat.add_sub_cancel]
  rw [Db.getChainHeight] at hread
  rw [hread]
  rfl

/-- Blocks below the new one are read back as before. -/
theorem storedBlock_writeStored_lt {P : Primitives} {d : Db} {sb : StoredBlock} {k : Nat} (hk : k < d.getChainHeight) :
    (writeStored P d sb).storedBlock k = d.storedBlock k := by
  have hmeta : (writeStored P d sb).metas[k]? = d.metas[k]? := by
    rw [writeStored_metas, getElem?_append_left hk]
  have hdata : (writeStored P d sb).blockData k = d.blockData k := by
    rw [writeStored_blockData, Table.put_of_ne _ _ (by omega)]
  have hentry : ∀ t, (writeStored P d sb).transactionByIndex k t = d.transactionByIndex k t := by
    intro t
    rw [Db.transactionByIndex, writeStored_txEntries, if_neg (by omega)]
    rfl
  simp only [Db.storedBlock, hmeta, hdata, hentry]

theorem storedBlocks_writeStored {P : Primitives} {d : Db} {sb : StoredBlock} (hs : sb.Sized) :
    (writeStored P d sb).storedBlocks = d.storedBlocks ++ [sb] := by
  unfold Db.storedBlocks
  rw [writeStored_getChainHeight, range_succ, filterMap_append]
  congr 1
  · apply filterMap_congr
    intro k hk
    exact storedBlock_writeStored_lt (mem_range.mp hk)
  · simp [storedBlock_writeStored_last hs]

include h

theorem Built.storedBlocks : db.storedBlocks = blocks := by
  induction h with
  | genesis _ hp => rw [hp.written, storedBlocks_writeStored hp.undoable.sized]; rfl
  | push _ hp ih => rw [hp.written, storedBlocks_writeStored hp.undoable.sized, ih]

/-- Indexed are the transactions of the stored blocks, coinbases included. -/
theorem Built.indexed_iff {k : Hash} : (db.txIndex k).isSome ↔ ∃ sb ∈ blocks, k ∈ blockTxHashes E.P sb.block := by
  have hwrite : ∀ (d : Db) (sb' : StoredBlock), sb'.Sized → (((writeStored E.P d sb').txIndex k).isSome ↔
      (d.txIndex k).isSome ∨ k ∈ blockTxHashes E.P sb'.block) := by
    intro d sb' hs
    rw [← hs.fst E.P]
    exact writeTransactions_txIndex E.P d.getChainHeight k (sb'.transactions E.P) d 0
  induction h with
  | genesis _ hp =>
    rw [hp.written, hwrite _ _ hp.undoable.sized]
    simp [Db.empty, Table.empty]
  | push _ hp ih =>
    rw [hp.written, hwrite _ _ hp.undoable.sized]
    refine (or_congr_left ih).trans ?_
    simp only [mem_append, mem_singleton, or_and_right, exists_or, exists_eq_left]

theorem Built.indexed {sb : StoredBlock} (hsb : sb ∈ blocks) {k : Hash} (hk : k ∈ sb.block.transactionHashes) :
    (db.txIndex k).isSome :=
  h.indexed_iff.mpr ⟨sb, hsb, by simp [blockTxHashes, hk]⟩

/-- Removing the last of several blocks gives the store before it. -/
theorem Built.removeLastBlock (hlen : 1 < db.getChainHeight) :
    ∃ blocks' sb, blocks = blocks' ++ [sb] ∧ Built E clock blocks' (L3.removeLastBlock E.P db) ∧
      Pushed E clock (L3.removeLastBlock E.P db) sb db := by
  have hl := h.length
  cases h with
  | genesis => simp only [length_singleton] at hl; omega
  | push hb hp =>
    have hundo := removeLastBlock_writeStored hb.wf hp.undoable
    rw [← hp.written] at hundo
    exact ⟨_, _, rfl, hundo.symm ▸ hb, hundo.symm ▸ hp⟩

end Built

/-- Every reachable store is built by pushing the blocks it stores. -/
theorem ledger_built {E : Env} {db : Db} (h : (ledgerLts E).Reachable db) :
    ∃ clock, Built E clock db.storedBlocks db := by
  suffices hI : (ledgerLts E).Inductive fun db => ∃ clock blocks, Built E clock blocks db by
    obtain ⟨clock, blocks, hb⟩ := hI.reachable h
    exact ⟨clock, hb.storedBlocks.symm ▸ hb⟩
  refine ⟨?_, ?_⟩
  · rintro db ⟨now, g, hg, hp⟩
    obtain ⟨entry, hp⟩ := Pushed.of_ok (le_refl now) (by simp) (fun _ => rfl) (by rw [hg]; rfl) (by simp) hp
    exact ⟨now, _, .genesis rfl hp⟩
  · rintro db db' ⟨clock, blocks, hb⟩ hstep
    cases hstep with
    | push now alt pre hpre hlen hgate hp =>
      have hpos := hb.pos
      obtain ⟨entry, hp⟩ := Pushed.of_ok (Nat.le_max_right clock now) hpre (by omega) hlen hgate hp
      exact ⟨max clock now, _, .push (hb.mono (Nat.le_max_left _ _)) hp⟩
    | pushFailed => exact ⟨clock, blocks, hb⟩
    | pop hlen =>
      obtain ⟨blocks', sb, -, hb', -⟩ := hb.removeLastBlock hlen
      exact ⟨clock, blocks', hb'⟩

/-! ## Pushing again -/

/-- The difficulty on top of a block of the main chain does not depend on the
alternative blocks. -/
theorem getDifficultyForNextBlock_main {E : Env} {db : Db} {prev : Hash} (h : (db.hashHeight prev).isSome)
    (alt alt' : Hash → Option BlockEntry) :
    getDifficultyForNextBlock E db alt prev = getDifficultyForNextBlock E db alt' prev := by
  obtain ⟨k, hk⟩ := Option.isSome_iff_exists.mp h
  simp only [getDifficultyForNextBlock, hk]

theorem checkBlockTimestampMain_mono {db : Db} {now now' : Nat} {b : Block} (hle : now ≤ now')
    (h : checkBlockTimestampMain db now b = true) : checkBlockTimestampMain db now' b = true := by
  unfold checkBlockTimestampMain at h ⊢
  split at h
  · cases h
  · rw [if_neg (by omega)]
    exact h

theorem checkBlockHeader_again {E : Env} {now now' : Nat} {alt alt' : Hash → Option BlockEntry} {db : Db}
    {b : Block} {id : Hash} {difficulty : UInt64} (hle : now ≤ now') (htail : (db.hashHeight db.getTailId).isSome)
    (h : checkBlockHeader E now alt db b id = .ok difficulty) :
    checkBlockHeader E now' alt' db b id = .ok difficulty := by
  have hprev := (checkBlockHeader_ok h).2.1
  unfold checkBlockHeader at h ⊢
  split at h; · cases h
  rename_i hid
  split at h; · cases h
  rename_i hversion
  split at h; · cases h
  rename_i htag
  split at h; · cases h
  rename_i hlink
  split at h; · cases h
  rename_i hts
  rw [if_neg hid, if_neg hversion, if_neg htag, if_neg hlink,
    if_neg (by simpa using checkBlockTimestampMain_mono hle (by simpa using hts)),
    getDifficultyForNextBlock_main (by rw [hprev]; exact htail) alt' alt]
  exact h

theorem Built.tail {E : Env} {clock : Nat} {blocks : List StoredBlock} {db : Db} (h : Built E clock blocks db) :
    (db.hashHeight db.getTailId).isSome := by
  have hwrite : ∀ (d : Db) (sb : StoredBlock),
      ((writeStored E.P d sb).hashHeight (writeStored E.P d sb).getTailId).isSome := by
    intro d sb
    rw [writeStored_hashHeight, Db.getTailId, writeStored_metas]
    simp
  cases h with
  | genesis _ hp => rw [hp.written]; exact hwrite _ _
  | push _ hp => rw [hp.written]; exact hwrite _ _

/-- A block that was pushed can be pushed onto the same store again, at any later
time, whatever alternative blocks are known by then. -/
theorem Pushed.again {E : Env} {clock : Nat} {db db' : Db} {sb : StoredBlock} (h : Pushed E clock db sb db')
    (htail : (db.hashHeight db.getTailId).isSome) {now : Nat} (hnow : clock ≤ now) (alt : Hash → Option BlockEntry) :
    pushBlock E now alt none db sb.block (E.prims.getBlockHash sb.block) sb.txs = .ok db' := by
  obtain ⟨now', hle, alt', pre, hpre, hp⟩ := h.pushed
  obtain ⟨scan, difficulty, reward, emission, hok, hdb⟩ := pushBlock_ok.mp hp
  refine pushBlock_ok.mpr ⟨scan, difficulty, reward, emission, { hok with
    header := checkBlockHeader_again (le_trans hle hnow) htail hok.header
    proof := ?_ }, hdb⟩
  -- a proof that was handed in is the one the block has
  have hproof := hok.proof
  cases pre with
  | none => exact hproof
  | some p =>
    have hp' := hpre p rfl
    simp only [checkBlockProof, Option.some_or, Option.none_or, hp'] at hproof ⊢
    exact hproof

/-! ## Registrations -/

/-- A write keeps the first registration of every account. -/
theorem writeTransaction_pqAcctReg (P : Primitives) (db : Db) (height slot : Nat) (hash : Hash)
    (tx : Transaction) (a : Hash) :
    (writeTransaction P db height slot hash tx).pqAcctReg a =
      (db.pqAcctReg a).or (firstRegistration P [⟨height, slot, hash, tx⟩] a) := by
  simp only [writeTransaction, pushRegistration, firstRegistration]
  by_cases hs : slot = 0
  · simp [hs]
  · cases hreg : getPqAccountRegistrationId P tx with
    | none => simp [hs, hreg]
    | some a' =>
      by_cases ha : a' = a
      · subst ha
        cases hdb : db.pqAcctReg a' with
        | none => simp [hs, hreg, hdb]
        | some v => simp [hs, hdb]
      · have ha' : a ≠ a' := Ne.symm ha
        cases hdb : db.pqAcctReg a' with
        | none => simp [hs, hreg, hdb, ha, Table.put_of_ne _ _ ha']
        | some v => simp [hs, hreg, hdb, ha]

theorem firstRegistration_append (P : Primitives) (l l' : List ChainTx) (a : Hash) :
    firstRegistration P (l ++ l') a = (firstRegistration P l a).or (firstRegistration P l' a) := by
  unfold firstRegistration
  rw [find?_append]
  cases l.find? _ with
  | none => simp
  | some c => simp

theorem writeTransactions_pqAcctReg (P : Primitives) (height : Nat) (a : Hash) :
    ∀ (l : List (Hash × Transaction)) (db : Db) (slot : Nat), (writeTransactions P height db slot l).pqAcctReg a =
        (db.pqAcctReg a).or (firstRegistration P (blockTxs height slot l) a)
  | [], db, slot => by simp [writeTransactions, blockTxs, firstRegistration]
  | x :: l, db, slot => by
    rw [writeTransactions, writeTransactions_pqAcctReg P height a l, writeTransaction_pqAcctReg, Option.or_assoc,
      ← firstRegistration_append]
    rfl

/-- The registration of an account is its first on the chain. -/
theorem Built.pqAcctReg {E : Env} {clock : Nat} {blocks : List StoredBlock} {db : Db} (h : Built E clock blocks db)
    (a : Hash) : db.pqAcctReg a = firstRegistration E.P (chainTxs E.P blocks) a := by
  have hwrite : ∀ (d : Db) (sb : StoredBlock), (writeStored E.P d sb).pqAcctReg a =
      (d.pqAcctReg a).or (firstRegistration E.P (blockTxs d.getChainHeight 0 (sb.transactions E.P)) a) :=
    fun d sb => writeTransactions_pqAcctReg E.P d.getChainHeight a (sb.transactions E.P) d 0
  induction h with
  | genesis _ hp =>
    rw [hp.written, hwrite]
    simp [chainTxs, chainTxsFrom, Db.getChainHeight, Db.empty]
  | push hb hp ih => rw [hp.written, hwrite, ih, chainTxs_append, firstRegistration_append, hb.length]

theorem mem_blockTxs {height : Nat} {c : ChainTx} : ∀ {l : List (Hash × Transaction)} {slot : Nat},
    c ∈ blockTxs height slot l ↔ c.height = height ∧ slot ≤ c.slot ∧ l[c.slot - slot]? = some (c.hash, c.tx)
  | [], slot => by simp [blockTxs]
  | x :: l, slot => by
    rw [blockTxs, mem_cons, mem_blockTxs]
    constructor
    · rintro (rfl | ⟨hh, hs, hget⟩)
      · exact ⟨rfl, le_refl _, by simp⟩
      · refine ⟨hh, by omega, ?_⟩
        rw [show c.slot - slot = c.slot - (slot + 1) + 1 by omega, getElem?_cons_succ, hget]
    · rintro ⟨hh, hs, hget⟩
      rcases Nat.eq_or_lt_of_le hs with rfl | hs
      · simp only [Nat.sub_self, getElem?_cons_zero, Option.some.injEq] at hget
        left
        cases c
        simp_all
      · right
        rw [show c.slot - slot = c.slot - (slot + 1) + 1 by omega, getElem?_cons_succ] at hget
        exact ⟨hh, by omega, hget⟩

/-- A stored entry is a transaction of the chain and the other way round. -/
theorem Built.txEntries {E : Env} {clock : Nat} {blocks : List StoredBlock} {db : Db}
    (h : Built E clock blocks db) {height slot : Nat} {tx : Transaction} :
    db.txEntries (height, slot) = some tx ↔ ∃ hash, (⟨height, slot, hash, tx⟩ : ChainTx) ∈ chainTxs E.P blocks := by
  have hwrite : ∀ (d : Db) (sb : StoredBlock), d.Wf → ((writeStored E.P d sb).txEntries (height, slot) = some tx ↔
      d.txEntries (height, slot) = some tx ∨
        ∃ hash, (⟨height, slot, hash, tx⟩ : ChainTx) ∈ blockTxs d.getChainHeight 0 (sb.transactions E.P)) := by
    intro d sb hwf
    rw [writeStored_txEntries]
    simp only [mem_blockTxs, Nat.zero_le, Nat.sub_zero, true_and]
    by_cases hh : height = d.getChainHeight
    · have hnone : d.txEntries (height, slot) = none := hwf.txEntries _ _ (by omega)
      split
      · simp only [hnone, Option.map_eq_some_iff, Prod.exists, reduceCtorEq, false_or]
        exact ⟨fun ⟨hash, t, hget, ht⟩ => ⟨hash, hh, ht ▸ hget⟩, fun ⟨hash, _, hget⟩ => ⟨hash, tx, hget, rfl⟩⟩
      · rename_i hlt
        simp only [hnone, reduceCtorEq, false_or, false_iff, not_exists, not_and]
        intro hash _ hget
        exact hlt ⟨hh, (List.getElem?_eq_some_iff.mp hget).1⟩
    · rw [if_neg (by omega)]
      simp [hh]
  induction h with
  | genesis _ hp =>
    rw [hp.written, hwrite _ _ .empty]
    simp [chainTxs, chainTxsFrom, Db.getChainHeight, Db.empty]
  | push hb hp ih =>
    rw [hp.written, hwrite _ _ hb.wf, chainTxs_append, hb.length]
    simp only [mem_append, exists_or]
    exact or_congr_left ih

/-- What an account's registration points at. -/
theorem Built.registered {E : Env} {clock : Nat} {blocks : List StoredBlock} {db : Db}
    (h : Built E clock blocks db) {a : Hash} {height slot : Nat} (ha : db.pqAcctReg a = some (height, slot)) :
    ∃ tx, db.txEntries (height, slot) = some tx ∧ getPqAccountRegistrationId E.P tx = some a := by
  rw [h.pqAcctReg, firstRegistration, Option.map_eq_some_iff] at ha
  obtain ⟨c, hc, hpos⟩ := ha
  have hcond := find?_some hc
  simp only [decide_eq_true_eq] at hcond
  refine ⟨c.tx, h.txEntries.mpr ⟨c.hash, ?_⟩, hcond.2⟩
  obtain ⟨h1, h2⟩ := Prod.mk.inj hpos
  have := mem_of_find?_eq_some hc
  rw [← h1, ← h2]
  exact this

/-- A polynomial hash of the length and both ends; distinct on everything the runs
hash. -/
def toyHash (bs : Bytes) : Hash :=
  ⟨leBytes 32 ((bs.take 80 ++ bs.drop (bs.length - 80)).foldl
    (fun acc b => (acc * 257 + b.toNat + 1) % (2 ^ 256 - 189)) bs.length), leBytes_length 32 _⟩

/-- Every signature verifies and every block has the work of the zero hash. -/
def toyPrimitives : NodePrimitives where
  sha3_256 := toyHash
  cnFastHash := toyHash
  dsaVerify := fun _ _ _ => true
  ySlowHash := fun _ => some nullHash
  getBlockHash := fun b => toyHash (b.previousBlockHash.val ++ le64 b.timestamp ++ le32 b.nonce ++
    (b.transactionHashes.map (·.val)).flatten)
  prevalidateBlockProofOfWork := fun _ => some nullHash

def toyEnv (checkpoints : Checkpoints) : Env where
  prims := toyPrimitives
  currency := { testnet := true, genesisBlockHash := nullHash }
  checkpoints := checkpoints

def toyKey : Blob pqAuthPubSize := ⟨List.replicate pqAuthPubSize 1, length_replicate⟩

/-- The randomness of the miner's output at a height. -/
def toyRho (height : UInt32) : Blob pqRhoSize := coinbaseRho toyPrimitives.toPrimitives toyKey height 0

def toyReward (height : UInt32) (amount unlockHeight : UInt64) : TransactionOutput :=
  ⟨amount, unlockHeight, .coinbase ⟨spendCommit toyPrimitives.toPrimitives toyKey (toyRho height)⟩⟩

def toyBlock (height : UInt32) (previous : Hash) (timestamp : UInt64) (output : TransactionOutput)
    (hashes : List Hash) : Block where
  majorVersion := 1
  minorVersion := 0
  nonce := 0
  timestamp := timestamp
  previousBlockHash := previous
  baseTransaction :=
    { version := 1
      txType := txCoinbase
      unlockHeight := if height = 0 then 0 else UInt64.ofNat (height.toNat + minedMoneyUnlockWindow)
      inputs := [.base ⟨height⟩]
      outputs := [output]
      extra := txExtraTagPqMinerSpendPub :: toyKey.val
      pqSignatures := [] }
  signature := List.replicate pqSignatureSize 0
  transactionHashes := hashes

def toyGenesis : Block := toyBlock 0 nullHash 0 (toyReward 0 1000 0) []

/-- A transfer of the miner's outputs named by `inputs`, to an output of zeros. -/
def toyTransfer (inputs : List (Hash × Blob pqRhoSize)) (amount : UInt64) : Transaction where
  version := 1
  txType := txPq
  unlockHeight := 0
  inputs := inputs.map fun x => .pq ⟨x.1, 0, toyKey.val, x.2.val, pqNoKeyRef⟩
  outputs := [⟨amount, 0, .pq ⟨List.replicate pqKemCiphertextSize 0, List.replicate pqEncPayloadSize 0, nullHash⟩⟩]
  extra := []
  pqSignatures := inputs.map fun _ => zeroBlob pqSignatureSize

def toyTxHash (tx : Transaction) : Hash := getObjectHash toyPrimitives.toPrimitives tx

def toyNext (b : Block) (height : UInt32) (amount unlockHeight : UInt64) (hashes : List Hash) : Block :=
  toyBlock height (toyPrimitives.getBlockHash b) 0 (toyReward height amount unlockHeight) hashes

end Discrete.L3
