import Discrete.L3Ledger.Maturity
import Discrete.L4Node.Finality
import Discrete.L4Node.Template

/-!
# The reward of a block template (`Core.cpp`, `Currency.cpp`)

`get_block_template_pq` pays its coinbase the fees that the pool filed the selected
transactions under; `pushBlock` computes them again from the chain. `add_tx` looks at the
chain once, and files a transfer that came with a block and whose inputs do not check then
under fee 0. `popBlock` hands the transactions of a block back while the block is still on
the chain, so none of their inputs check.

* `unpaid_template`: a transfer that a reorganisation returned goes into a template with
  fee 0, and the block is refused for its reward.
* `template_reward`: for a transfer that passes on the chain, the fee it is filed under is
  right unless it is 0. If no selected one has fee 0, the reward is the one `pushBlock` asks
  for.

A transaction is known by its hash: `K` is a set of transactions without collisions that
all those the node ever holds are in.
-/
namespace Discrete.L4
open List L1 L2 L3

/-! ## The template -/

def txExtraNonceMaxCount : Nat := 255

/-- A nonce that is too long is not added.
mirrors TransactionExtra.cpp:212-228 -/
def addExtraNonceToTransactionExtra (extra extraNonce : Bytes) : Bytes :=
  if extraNonce.length > txExtraNonceMaxCount then extra
  else extra ++ txExtraNonce :: UInt8.ofNat extraNonce.length :: extraNonce

/-- mirrors TransactionExtra.cpp:449-454 -/
def addPqMinerSpendPubToExtra (extra : Bytes) (spendPub : Blob pqAuthPubSize) : Bytes :=
  extra ++ txExtraTagPqMinerSpendPub :: spendPub.val

/-- `none` when the block is too big for a reward.
mirrors Currency.cpp:236-290 -/
def constructMinerTxPq (P : Primitives) (height medianSize : Nat) (alreadyGeneratedCoins : UInt64)
    (currentBlockSize : Nat) (fee : UInt64) (minerSpendPub : Blob pqAuthPubSize) (extraNonce : Bytes) :
    Option Transaction :=
  match getBlockReward medianSize currentBlockSize alreadyGeneratedCoins fee with
  | none => none
  | some (blockReward, _) =>
    let unlockHeight := UInt64.ofNat (height + minedMoneyUnlockWindow)
    let commit := spendCommit P minerSpendPub (coinbaseRho P minerSpendPub (UInt32.ofNat height) 0)
    let extra := addPqMinerSpendPubToExtra [] minerSpendPub
    some { version := transactionVersion1
           txType := txCoinbase
           unlockHeight := unlockHeight
           inputs := [.base ⟨UInt32.ofNat height⟩]
           outputs := [⟨blockReward, unlockHeight, .coinbase ⟨commit⟩⟩]
           extra := if extraNonce ≠ [] then addExtraNonceToTransactionExtra extra extraNonce else extra
           pqSignatures := [] }

/-- Construct the coinbase for the size that the block has with it, at most `tries` times.
mirrors Core.cpp:559-575 -/
def stabilizeSize (construct : Nat → Option Transaction) (txsSize : Nat) : Nat → Nat → Option (Transaction × Nat)
  | 0, _ => none
  | tries + 1, cumulativeSize =>
    match construct cumulativeSize with
    | none => none
    | some tx =>
      let measuredSize := txsSize + getObjectBinarySize tx
      if measuredSize = cumulativeSize then some (tx, cumulativeSize)
      else stabilizeSize construct txsSize tries measuredSize

/-- Select, construct and measure; what is too big is selected again with a smaller limit.
`construct` is given the size and the fees.
mirrors Core.cpp:541-598 -/
def Node.selectTemplate (N : NodeEnv) (construct : Nat → UInt64 → Option Transaction) (medianSize maxCumulativeSize : Nat) :
    Nat → Node → Nat → Option (List Hash × Transaction) × Node
  | 0, s, _ => (none, s)
  | tries + 1, s, selectionLimit =>
    let r := L4.fillBlockTemplate N.toEnv s.db s.pool medianSize selectionLimit
    let s := { s with pool := r.pool }
    match construct r.totalSize r.fee with
    | none => (none, s)
    | some tx =>
      match stabilizeSize (construct · r.fee) r.totalSize 10 (r.totalSize + getObjectBinarySize tx) with
      | none => (none, s)
      | some (tx, cumulativeSize) =>
        if cumulativeSize ≤ maxCumulativeSize then (some (r.template.txHashes, tx), s)
        else
          let overflow := cumulativeSize - maxCumulativeSize
          if overflow ≥ selectionLimit then (none, s)
          else Node.selectTemplate N construct medianSize maxCumulativeSize tries s (selectionLimit - overflow)

/-- The timestamp of a new block: not before its parent, nor before the median of the last
blocks.
mirrors Core.cpp:508-531 -/
def templateTimestamp (db : Db) (now : Nat) : UInt64 :=
  let height := db.getChainHeight
  let parentTimestamp := if height > 0 then (db.getBlockMeta (height - 1)).timestamp else 0
  let timestamp := if UInt64.ofNat now < parentTimestamp then parentTimestamp else UInt64.ofNat now
  if height ≥ timestampCheckWindow then
    let timestamps := (List.range timestampCheckWindow).map fun i =>
      (db.getBlockMeta (height - timestampCheckWindow + i)).timestamp
    let medianTs := medianValue timestamps
    if timestamp < medianTs then medianTs else timestamp
  else timestamp

/-- The block to be mined, with its difficulty. The answers that filling it in caches stay.
mirrors Core.cpp:494-598 -/
def Node.getBlockTemplatePq (N : NodeEnv) (s : Node) (spendPub : Blob pqAuthPubSize) (exNonce : Bytes) :
    Option (Block × UInt64) × Node :=
  let height := s.db.getChainHeight
  let timestamp := templateTimestamp s.db (N.clock s.reads)
  let diffic := getDifficultyForNextBlock N.toEnv s.db s.findAlternative s.db.getTailId
  let s := { s with reads := s.reads + 1 }
  if diffic = 0 then (none, s)
  else
    let medianSize := s.currentBlockCumulSzLimit / 2
    let construct := fun size fee =>
      constructMinerTxPq N.P height medianSize s.db.getCoinsInCirculation size fee spendPub exNonce
    match Node.selectTemplate N construct medianSize (maxBlockCumulativeSize height) 10 s
        (maxBlockCumulativeSize height) with
    | (none, s) => (none, s)
    | (some (hashes, baseTransaction), s) =>
      (some ({ majorVersion := 1
               minorVersion := 0
               nonce := 0
               timestamp := timestamp
               previousBlockHash := s.db.getTailId
               baseTransaction := baseTransaction
               signature := []
               transactionHashes := hashes }, diffic), s)

/-! ## Fees that do not depend on the chain -/

section Fees
variable {P : Primitives} {K : Transaction → Prop}

/-- A transaction in `K` has an output of this amount where the input points. -/
def OutputIn (P : Primitives) (K : Transaction → Prop) (i : PqInput) (amount : UInt64) : Prop :=
  ∃ t o, K t ∧ getObjectHash P t = i.prevTxid ∧ t.outputs[i.prevOutIndex.toNat]? = some o ∧ o.amount = amount

theorem OutputIn.unique (hK : Set.InjOn (getObjectHash P) {t | K t}) {i : PqInput} {a a' : UInt64}
    (h : OutputIn P K i a) (h' : OutputIn P K i a') : a = a' := by
  obtain ⟨t, o, ht, hid, ho, rfl⟩ := h
  obtain ⟨t', o', ht', hid', ho', rfl⟩ := h'
  obtain rfl := hK ht ht' (hid.trans hid'.symm)
  rw [ho] at ho'
  cases ho'
  rfl

/-- What a transfer gives up, from the outputs that `K` knows. -/
def PaysIn (P : Primitives) (K : Transaction → Prop) (tx : Transaction) (fee : UInt64) : Prop :=
  ∃ amount : PqInput → UInt64, (∀ i ∈ tx.pqInputs, OutputIn P K i (amount i)) ∧
    fee = (tx.pqInputs.map amount).sum - getOutputAmount tx

theorem PaysIn.unique (hK : Set.InjOn (getObjectHash P) {t | K t}) {tx : Transaction} {fee fee' : UInt64}
    (h : PaysIn P K tx fee) (h' : PaysIn P K tx fee') : fee = fee' := by
  obtain ⟨amount, hamount, rfl⟩ := h
  obtain ⟨amount', hamount', rfl⟩ := h'
  have hsame : tx.pqInputs.map amount = tx.pqInputs.map amount' :=
    map_congr_left fun i hi => (hamount i hi).unique hK (hamount' i hi)
  rw [hsame]

/-- What an entry of the pool says about its transaction: its size, and its fee or 0. -/
structure EntryOk (P : Primitives) (K : Transaction → Prop) (d : TransactionDetails) : Prop where
  size : d.blobSize = getObjectBinarySize d.tx
  transfer : pqOnlyInputs d.tx = true → d.fee = 0 ∨ PaysIn P K d.tx d.fee
  other : pqOnlyInputs d.tx = false → d.fee = getInputAmount d.tx - getOutputAmount d.tx

def Priced (P : Primitives) (K : Transaction → Prop) (p : Pool) : Prop := ∀ d ∈ p.transactions.entries, EntryOk P K d

end Fees

variable {N : NodeEnv} {K : Transaction → Prop} {s s' : Node}

/-- The node knows only transactions in `K`. Those that are not coinbases came as whole
blobs. -/
structure TxsIn (N : NodeEnv) (K : Transaction → Prop) (s : Node) : Prop where
  chain : ∀ sb ∈ s.db.storedBlocks, ∀ tx ∈ sb.txs, K tx ∧ getObjectBinarySize tx = (toBinaryArray tx).length
  pool : ∀ id tx, s.pool.view id = some tx → K tx ∧ getObjectBinarySize tx = (toBinaryArray tx).length

/-- The coinbase of a block is in `K`. -/
def CoinbaseIn (K : Transaction → Prop) (b : Block) : Prop := K b.baseTransaction

theorem StoredBlock.transactions_eq {P : Primitives} {sb : StoredBlock}
    (h : sb.txs.map (getObjectHash P) = sb.block.transactionHashes) :
    sb.transactions P = (sb.block.baseTransaction :: sb.txs).map fun tx => (getObjectHash P tx, tx) := by
  rw [StoredBlock.transactions, blockTxHashes, ← h, ← map_cons]
  conv_lhs => rw [← List.map_id (sb.block.baseTransaction :: sb.txs)]
  rw [List.map_map, zip_map']
  rfl

/-- What is on the chain is in `K`, under its hash. -/
theorem TxsIn.chainTx (h : TxsIn N K s) (hs : Steady N (CoinbaseIn K) s) {c : ChainTx}
    (hc : c ∈ chainTxs N.P s.db.storedBlocks) : K c.tx ∧ getObjectHash N.P c.tx = c.hash := by
  obtain ⟨-, sb, hsb, hget⟩ := mem_chainTxsFrom hc
  have hmem := mem_of_getElem? hsb
  have hx := mem_of_getElem? hget
  rw [StoredBlock.transactions_eq (hs.ok.hashes sb hmem)] at hx
  obtain ⟨tx, htx, he⟩ := List.mem_map.mp hx
  obtain ⟨hhash, rfl⟩ := Prod.mk.inj he
  refine ⟨?_, hhash⟩
  rcases mem_cons.mp htx with hbase | htx
  · rw [hbase]
    exact hs.blocks.main sb hmem
  · exact (h.chain sb hmem _ htx).1

/-- A transfer whose inputs check pays what `K` says. -/
theorem TxsIn.paysIn (h : TxsIn N K s) (hs : Steady N (CoinbaseIn K) s) {tx : Transaction} {fee : UInt64}
    (hok : PqInputsOk N.P s.db tx fee) : PaysIn N.P K tx fee := by
  refine ⟨s.db.referencedAmount, ?_, ?_⟩
  · intro i hi
    obtain ⟨block, out, hspendable⟩ := hok.spendable i hi
    obtain ⟨c, hrefers, -⟩ := hs.ok.built.checked.2.refersTo hspendable.referenced
    obtain ⟨hknown, hhash⟩ := h.chainTx hs hrefers.mem
    exact ⟨c.tx, out, hknown, hhash.trans hrefers.hash, hrefers.output, hspendable.amount.symm⟩
  · have hfee := hok.fee
    unfold getPqTransactionFee at hfee
    dsimp only at hfee
    split at hfee
    · cases hfee
    · cases hfee
      rfl

section Entries
variable {p p' : Pool}

theorem Priced.sub (h : Priced N.P K p) (hsub : ∀ d ∈ p'.transactions.entries, d ∈ p.transactions.entries) :
    Priced N.P K p' := fun d hd => h d (hsub d hd)

theorem Priced.removeAll {remove : Pool → TransactionDetails → Pool}
    (hremove : ∀ p d, (remove p d).transactions = p.transactions.erase d.id)
    (l : List TransactionDetails) (h : Priced N.P K p) : Priced N.P K (l.foldl remove p) :=
  foldlRecOn l _ h fun p hp d _ => hp.sub fun e he => by
    rw [hremove] at he
    exact (MultiIndex.mem_erase.mp he).1

/-- The entries of `p'` are entries of `p`, but for the blocks they cache. -/
def Recached (p p' : Pool) : Prop :=
  ∀ e ∈ p'.transactions.entries, ∃ d ∈ p.transactions.entries, ∃ info, e = setCheckInfo info d

theorem Recached.refl (p : Pool) : Recached p p := fun e he => ⟨e, he, e.toTransactionCheckInfo, rfl⟩

theorem Recached.trans {p'' : Pool} (h : Recached p p') (h' : Recached p' p'') : Recached p p'' := by
  intro e he
  obtain ⟨d, hd, info, rfl⟩ := h' e he
  obtain ⟨d', hd', info', rfl⟩ := h d hd
  exact ⟨d', hd', info, rfl⟩

theorem FillTurn.recached {E : Env} {db : Db} {t t' : TemplateScan} {txd : TransactionDetails}
    (h : FillTurn E db t txd t') : Recached t.pool t'.pool := by
  cases h with
  | passed => exact .refl _
  | looked _ _ hpool _ =>
    intro e he
    rw [hpool] at he
    obtain ⟨d, hd, rfl⟩ := List.mem_map.mp he
    split
    · exact ⟨d, hd, _, rfl⟩
    · exact ⟨d, hd, d.toTransactionCheckInfo, rfl⟩

theorem fillBlockTemplate_recached (E : Env) (db : Db) (p : Pool) (medianSize maxCumulativeSize : Nat) :
    Recached p (fillBlockTemplate E db p medianSize maxCumulativeSize).pool :=
  foldlRecOn (motive := fun t : TemplateScan => Recached p t.pool) _ _ (.refl _) fun t ht d _ =>
    ht.trans (fillTurn_cases E db medianSize _ t d).recached

theorem Priced.recached (h : Priced N.P K p) (hp : Recached p p') : Priced N.P K p' := by
  intro e he
  obtain ⟨d, hd, info, rfl⟩ := hp e he
  obtain ⟨hsize, htransfer, hother⟩ := h d hd
  exact ⟨hsize, htransfer, hother⟩

/-- A new entry is right about the chain it is filed at. -/
theorem Priced.addTx (hp : Priced N.P K p) (hin : TxsIn N K s) (hs : Steady N (CoinbaseIn K) s) (sizeLimit now : Nat)
    (tx : Transaction) (id : Hash) (kept : Bool) :
    Priced N.P K (addTx N.toEnv s.db sizeLimit now p tx id (getObjectBinarySize tx) kept).2 := by
  generalize L4.addTx N.toEnv s.db sizeLimit now p tx id (getObjectBinarySize tx) kept = r,
    addTx_added N.toEnv s.db sizeLimit now p tx id (getObjectBinarySize tx) kept = hadded
  cases hadded with
  | refused => exact hp
  | forgotten => exact hp
  | @filed txd c _ _ _ htx hblob hfee hc =>
    intro d hd
    rw [(addTransactionInputs_frame N.P { p with transactions := c } id tx kept).1] at hd
    rcases (MultiIndex.mem_insert hc).mp hd with rfl | hd
    · refine ⟨by rw [hblob, htx], ?_, ?_⟩
      · intro htransfer
        rw [htx] at htransfer ⊢
        unfold poolFee at hfee
        rw [if_pos htransfer] at hfee
        split at hfee
        · rename_i hvalid
          obtain ⟨m, hm⟩ := Option.isSome_iff_exists.mp (checkTransactionInputsMaxUsed_true hvalid)
          rcases (TxInputsOk.of_some hm).2 with ⟨fee, -, hok⟩ | htype | htype
          · have hpays := hin.paysIn hs hok
            rw [hok.fee] at hfee
            cases hfee
            exact .inr hpays
          · simp [pqOnlyInputs, htype] at htransfer
            exact absurd htransfer.2 (by decide)
          · simp [pqOnlyInputs, htype] at htransfer
            exact absurd htransfer.2 (by decide)
        · exact .inl (Option.some.inj hfee).symm
      · intro hother
        rw [htx] at hother ⊢
        unfold poolFee at hfee
        rw [if_neg (by simp [hother])] at hfee
        exact (Option.some.inj hfee).symm
    · exact hp d hd

theorem Priced.moves (hp : Priced N.P K p) (hin : TxsIn N K s) (hs : Steady N (CoinbaseIn K) s)
    (hmoves : PoolMoves N s.db p p') : Priced N.P K p' := by
  induction hmoves with
  | refl => exact hp
  | tail _ hmove ih =>
    cases hmove with
    | keep sizeLimit now tx => exact ih.addTx hin hs sizeLimit now tx _ true
    | take id htake =>
      refine ih.sub ?_
      obtain ⟨txd, -, he⟩ := Option.map_eq_some_iff.mp htake
      obtain ⟨-, rfl⟩ := Prod.mk.inj he
      intro d hd
      rw [removeTransaction_transactions] at hd
      exact (MultiIndex.mem_erase.mp hd).1

end Entries

/-! ## Along a run -/

theorem TxsIn.pushed (h : TxsIn N K s) (hs : NodeOk N s) {b : Block} {prevalidated : Option Hash}
    (hpre : ∀ p ∈ prevalidated, N.prims.prevalidateBlockProofOfWork b = some p) :
    TxsIn N K (s.pushBlock N b (N.prims.getBlockHash b) prevalidated).2 := by
  have hpos := hs.built.pos
  have hspec := (pushBlock_spec hs.pool (fun h0 => by omega) hpre).2
  generalize (s.pushBlock N b (N.prims.getBlockHash b) prevalidated).1 = outcome at hspec
  generalize (s.pushBlock N b (N.prims.getBlockHash b) prevalidated).2 = s' at hspec ⊢
  cases hspec with
  | @pushed _ sb _ hm =>
    refine ⟨?_, ?_⟩
    · intro sb' hsb' tx htx
      rw [hm.storedBlocks, mem_append, mem_singleton] at hsb'
      rcases hsb' with hsb' | rfl
      · exact h.chain sb' hsb' tx htx
      · exact h.pool _ tx (hm.taken.held tx htx)
    · intro id tx htx
      rw [hm.moved] at htx
      exact h.pool id tx (Sub.removeAll _ _ id tx htx)
  | refused hdb hview =>
    refine ⟨?_, ?_⟩
    · rw [hdb]
      exact h.chain
    · rw [hview]
      exact h.pool
  | threw hdb hsub =>
    refine ⟨?_, fun id tx htx => h.pool id tx (hsub id tx htx)⟩
    rw [hdb]
    exact h.chain

theorem TxsIn.popped (h : TxsIn N K s) (hs : NodeOk N s) (hlen : 1 < s.db.getChainHeight) :
    TxsIn N K (s.popBlock N) := by
  obtain ⟨-, -, sb, hm, -⟩ := popBlock_spec hs hlen
  have hblocks := hm.storedBlocks
  refine ⟨?_, ?_⟩
  · intro sb' hsb'
    exact h.chain sb' (by rw [hblocks]; simp [hsb'])
  · intro id tx htx
    rw [hm.view_eq] at htx
    rcases Option.or_eq_some_iff.mp htx with htx | ⟨-, htx⟩
    · exact h.chain sb (by rw [hblocks]; simp) tx (mem_of_find?_eq_some htx)
    · exact h.pool id tx htx

theorem Priced.callInv (N : NodeEnv) (K : Transaction → Prop) :
    CallInv N (fun s => Steady N (CoinbaseIn K) s ∧ (TxsIn N K s ∧ Priced N.P K s.pool)) (CoinbaseIn K) True := by
  refine (Steady.callInv N (CoinbaseIn K)).and ?_ ?_ ?_
  · intro s b prevalidated hs ⟨hin, hpriced⟩ _ hpre
    exact ⟨⟨hin.pushed hs.ok hpre, hpriced.moves hin hs (pushBlock_moves s b _ prevalidated)⟩, fun _ => trivial⟩
  · intro s hs ⟨hin, hpriced⟩ hlen
    exact ⟨hin.popped hs.ok hlen, hpriced.moves hin hs (popBlock_moves s)⟩
  · intro s s' ⟨hin, hpriced⟩ hdb hpool
    refine ⟨⟨?_, ?_⟩, ?_⟩
    · rw [hdb]
      exact hin.chain
    · rw [hpool]
      exact hin.pool
    · rw [hpool]
      exact hpriced

/-- Every coinbase that is offered is in `K`. -/
def coinbaseGuards (K : Transaction → Prop) : Guards where
  genesis := CoinbaseIn K
  offer _ := CoinbaseIn K
  rollback _ _ := True
  resync _ := True

/-- Every transaction of the pool is in `K`. -/
def PoolIn (K : Transaction → Prop) (s : Node) : Prop := ∀ id tx, s.pool.view id = some tx → K tx

/-- The runs in which all transactions are in `K`. -/
def knownLts (N : NodeEnv) (K : Transaction → Prop) : Lts Node := (guardedLts N (coinbaseGuards K)).within (PoolIn K)

theorem steady_known (h : (knownLts N K).Reachable s) : Steady N (CoinbaseIn K) s :=
  Steady.of_reachable (fun _ hb => hb) (fun _ _ hb => hb) h.of_within.1

theorem TxsIn.call (h : TxsIn N K s) (hcall : PoolCall N s s') (hpool : PoolIn K s') : TxsIn N K s' := by
  refine ⟨?_, ?_⟩
  · rw [hcall.step.db]
    exact h.chain
  have hsub : Sub s'.pool.view s.pool.view → ∀ id tx, s'.pool.view id = some tx →
      K tx ∧ getObjectBinarySize tx = (toBinaryArray tx).length :=
    fun hsub id tx htx => h.pool id tx (hsub id tx htx)
  cases hcall with
  | transaction txBlob kept =>
    have hin := handleIncomingTx_cases (N := N) (s := s) txBlob kept
    generalize (handleIncomingTx N s txBlob kept).2 = s' at hin hpool hsub ⊢
    cases hin with
    | nothing => exact h.pool
    | @added tx _ _ _ hwhole =>
      rcases addTx_cases N.toEnv s.db s.currentBlockCumulSzLimit (N.clock s.reads) s.pool tx (getObjectHash N.P tx)
        (getObjectBinarySize tx) kept with hsame | ⟨-, hview, -⟩
      · refine hsub ?_
        simp only [Node.addTx, hsame]
        exact .refl _
      · intro id t ht
        refine ⟨hpool id t ht, ?_⟩
        simp only [Node.addTx, hview, Table.put_apply] at ht
        split at ht
        · cases ht
          exact hwhole
        · exact (h.pool id t ht).2
  | template medianSize maxCumulativeSize =>
    refine hsub ?_
    simp only [Node.fillBlockTemplate, fillBlockTemplate_view]
    exact .refl _
  | difference => exact h.pool
  | idle =>
    exact hsub ((removeStaleAccountRegistrations_sub N.P s.db _).1.trans (removeExpiredTransactions_sub N.P _ s.pool).1)

theorem Priced.call (h : Priced N.P K s.pool) (hin : TxsIn N K s) (hs : Steady N (CoinbaseIn K) s)
    (hcall : PoolCall N s s') : Priced N.P K s'.pool := by
  cases hcall with
  | transaction txBlob kept =>
    generalize (handleIncomingTx N s txBlob kept).2 = s', handleIncomingTx_cases (N := N) (s := s) txBlob kept = hcases
    cases hcases with
    | nothing => exact h
    | added => exact h.addTx hin hs _ _ _ _ _
  | template medianSize maxCumulativeSize =>
    exact h.recached (fillBlockTemplate_recached N.toEnv s.db s.pool medianSize maxCumulativeSize)
  | difference => exact h
  | idle =>
    have hexpired : Priced N.P K (removeExpiredTransactions N.P (N.clock s.reads) s.pool) := by
      refine Priced.removeAll ?_ _ (h.sub fun _ hd => hd)
      intro p d
      exact removeTransaction_transactions N.P { p with recentlyDeletedTransactions := _ } d
    exact Priced.removeAll (removeTransaction_transactions N.P) _ hexpired

theorem priced_known (h : (knownLts N K).Reachable s) : TxsIn N K s ∧ Priced N.P K s.pool := by
  induction h with
  | @init s hinit =>
    obtain ⟨⟨genesis, -, hempty, hpush⟩, -⟩ := hinit
    obtain ⟨-, sb, hblock, hm⟩ := genesis_spec hpush
    have htxs : sb.txs = [] := by
      have := hm.hashes
      rw [hblock, hempty, map_eq_nil_iff] at this
      exact this
    have hview : ∀ id, s.pool.view id = none := by
      intro id
      rw [hm.moved, Table.removeAll_apply]
      split
      · rfl
      · rfl
    refine ⟨⟨?_, ?_⟩, ?_⟩
    · intro sb' hsb' tx htx
      rw [hm.storedBlocks] at hsb'
      obtain rfl : sb' = sb := mem_singleton.mp hsb'
      rw [htxs] at htx
      cases htx
    · intro id tx htx
      rw [hview] at htx
      cases htx
    · intro d hd
      have := view_of_mem hd
      rw [hview] at this
      cases this
  | @step s s' hreach hstep ih =>
    obtain ⟨hstep, hpool⟩ := hstep
    have hs := steady_known hreach
    cases hstep with
    | offer hguard hoffer => exact ((Priced.callInv N K).offered ⟨hs, ih⟩ hguard hoffer.cases).1.2
    | pool hcall => exact ⟨ih.1.call hcall hpool, ih.2.call ih.1 hs hcall⟩
    | rollback =>
      exact ⟨⟨fun sb hsb => ih.1.chain sb (mem_storedBlocks_rollback hs.ok hsb), ih.1.pool⟩, ih.2⟩
    | resync =>
      rcases resyncToMajority_cases (N := N) (s := s) with hsame | ⟨-, hrolled⟩
      · rw [hsame]
        exact ih
      · rw [hrolled]
        exact ⟨⟨fun sb hsb => ih.1.chain sb (mem_storedBlocks_rollback hs.ok hsb), ih.1.pool⟩, ih.2⟩


/-! ## Fees at the tip -/

/-- What `pushBlock` asks of a transaction: the fee of a transfer, nothing of a free
registration. -/
def requiredFee (db : Db) (tx : Transaction) : Option UInt64 :=
  if pqOnlyInputs tx then getPqTransactionFee db tx else some 0

theorem blockTxFee_eq {P : Primitives} {db : Db} {tx : Transaction} (h : Gated P tx) :
    blockTxFee db tx = requiredFee db tx := by
  unfold blockTxFee requiredFee
  by_cases htransfer : pqOnlyInputs tx = true
  · rw [if_pos htransfer, if_pos (by simpa [pqOnlyInputs] using htransfer)]
  · rw [if_neg htransfer, if_neg (by simpa [pqOnlyInputs] using htransfer)]
    have hnone : getOutputAmount tx = 0 := by
      rcases (Gated.admissible h).amounts with hpq | hle
      · exact absurd hpq htransfer
      · exact UInt64.le_antisymm hle (UInt64.le_iff_toNat_le.mpr (Nat.zero_le _))
    rw [hnone, getInputAmount]
    rfl

/-- A transfer that passes pays something. -/
theorem fee_ne_zero {P : Primitives} {db : Db} {tx : Transaction} {fee : UInt64} (hok : PqInputsOk P db tx fee)
    (hsemantic : SemanticOk tx) : fee ≠ 0 := by
  have hextra := hsemantic.extra_le
  have hfloor : 0 < pqTxFeeFloor minimumFee tx.extra.length := by
    unfold pqTxFeeFloor pqTxExtraSurcharge
    have hmin : minimumFee = 1 := rfl
    have hmax : maxExtraSizePq < 2 ^ 32 := by decide
    rw [hmin, Nat.one_mul]
    split
    · decide
    · have hle : (tx.extra.length - txExtraFeeFreeBytes + txExtraFeeChunkBytes - 1) / txExtraFeeChunkBytes < 2 ^ 33 := by
        refine lt_of_le_of_lt (Nat.div_le_self _ _) ?_
        have : txExtraFeeChunkBytes < 2 ^ 32 := by decide
        omega
      generalize (tx.extra.length - txExtraFeeFreeBytes + txExtraFeeChunkBytes - 1) / txExtraFeeChunkBytes = chunks at hle ⊢
      omega
  rintro rfl
  exact absurd (Nat.lt_of_lt_of_le hfloor hok.floor) (by decide)

/-- The fee of an entry that passes is right unless a transfer is filed under 0. -/
theorem fee_iff (hK : Set.InjOn (getObjectHash N.P) {t | K t}) (hs : Steady N (CoinbaseIn K) s) (hin : TxsIn N K s)
    (hpriced : Priced N.P K s.pool) {d : TransactionDetails} (hd : d ∈ s.pool.transactions.entries)
    (hpasses : (checkTransactionInputs N.toEnv s.db d.tx none).isSome) :
    requiredFee s.db d.tx = some d.fee ↔ (pqOnlyInputs d.tx = true → d.fee ≠ 0) := by
  obtain ⟨-, hgated⟩ := hs.ok.pool _ _ (view_of_mem hd)
  obtain ⟨-, htransfer, hother⟩ := hpriced d hd
  obtain ⟨m, hm⟩ := Option.isSome_iff_exists.mp hpasses
  obtain ⟨hversion, htype⟩ := TxInputsOk.of_some hm
  by_cases hpq : pqOnlyInputs d.tx = true
  · rcases htype with ⟨fee, hisTransfer, hok⟩ | htype | htype
    · have hne : fee ≠ 0 := by
        obtain ⟨kept, hgate⟩ := hgated
        rcases GateOk.of_true hversion hgate with hsemantic | ⟨htype, -, -⟩
        · exact fee_ne_zero hok hsemantic
        · rw [htype] at hisTransfer
          exact absurd hisTransfer (by decide)
      rw [requiredFee, if_pos hpq, hok.fee, Option.some.injEq]
      constructor
      · rintro rfl _
        exact hne
      · intro hnonzero
        rcases htransfer hpq with hzero | hpays
        · exact absurd hzero (hnonzero hpq)
        · exact (hin.paysIn hs hok).unique hK hpays
    · simp only [pqOnlyInputs, htype, Bool.and_eq_true] at hpq
      exact absurd hpq.2 (by decide)
    · simp only [pqOnlyInputs, htype, Bool.and_eq_true] at hpq
      exact absurd hpq.2 (by decide)
  · have hfee : blockTxFee s.db d.tx = requiredFee s.db d.tx := blockTxFee_eq hgated
    rw [Bool.not_eq_true] at hpq
    refine ⟨fun _ htrue => absurd (hpq.symm.trans htrue) Bool.false_ne_true, fun _ => ?_⟩
    rw [← hfee, blockTxFee, if_neg (by simpa [pqOnlyInputs] using hpq), hother hpq]
    have hle : ¬ getOutputAmount d.tx > getInputAmount d.tx := by
      rcases (Gated.admissible hgated).amounts with htrue | hle
      · exact absurd (hpq.symm.trans htrue) Bool.false_ne_true
      · exact UInt64.not_lt.mpr hle
    rw [if_neg hle]

/-! ## The reward -/

theorem stabilizeSize_some {construct : Nat → Option Transaction} {txsSize : Nat} {tx : Transaction} {size : Nat} :
    ∀ {tries start : Nat}, stabilizeSize construct txsSize tries start = some (tx, size) →
      construct size = some tx ∧ size = txsSize + getObjectBinarySize tx
  | 0, _, h => by cases h
  | tries + 1, start, h => by
    rw [stabilizeSize] at h
    split at h
    · cases h
    rename_i tx' hconstruct
    dsimp only at h
    split at h
    · rename_i hmeasured
      cases h
      exact ⟨hconstruct, hmeasured.symm⟩
    · exact stabilizeSize_some h

/-- What comes out is one filling of the pool, but for cached answers, and a coinbase that
was constructed for the size of the whole. -/
theorem selectTemplate_some {construct : Nat → UInt64 → Option Transaction} {medianSize maxCumulativeSize : Nat}
    {hashes : List Hash} {base : Transaction} : ∀ {tries : Nat} {s s' : Node} {limit : Nat},
    Node.selectTemplate N construct medianSize maxCumulativeSize tries s limit = (some (hashes, base), s') →
    ∃ p limit', Recached s.pool p ∧ p.view = s.pool.view ∧ s'.db = s.db ∧ s'.pool.view = s.pool.view ∧
      hashes = (fillBlockTemplate N.toEnv s.db p medianSize limit').template.txHashes ∧
      ∃ size, construct size (fillBlockTemplate N.toEnv s.db p medianSize limit').fee = some base ∧
        size = (fillBlockTemplate N.toEnv s.db p medianSize limit').totalSize + getObjectBinarySize base
  | 0, _, _, _, h => by cases h
  | tries + 1, s, s', limit, h => by
    rw [Node.selectTemplate] at h
    dsimp only at h
    split at h
    · cases h
    split at h
    · cases h
    rename_i tx size hsize
    split at h
    · cases h
      exact ⟨s.pool, limit, .refl _, rfl, rfl, fillBlockTemplate_view _ _ _ _ _, rfl, size, stabilizeSize_some hsize⟩
    split at h
    · cases h
    · obtain ⟨p, limit', hp, hview, hdb, hview', hhashes, hbase⟩ := selectTemplate_some h
      have hfill := fillBlockTemplate_view N.toEnv s.db s.pool medianSize limit
      exact ⟨p, limit', (fillBlockTemplate_recached _ _ _ _ _).trans hp, hview.trans hfill, hdb, hview'.trans hfill,
        hhashes, hbase⟩

/-- The limit that is kept from the last push gives the median that a push takes. -/
theorem getBlockReward_limit (db : Db) (size : Nat) (coins fee : UInt64) :
    getBlockReward (updateNextCumulativeSizeLimit db / 2) size coins fee =
      getBlockReward (medianValue (db.getLastNBlocksSizes rewardBlocksWindow)) size coins fee := by
  unfold getBlockReward updateNextCumulativeSizeLimit
  rw [Nat.mul_div_cancel _ (by decide), max_eq_left (le_max_right _ _)]

theorem constructMinerTxPq_some {P : Primitives} {height medianSize size : Nat} {coins fee : UInt64}
    {spendPub : Blob pqAuthPubSize} {exNonce : Bytes} {tx : Transaction}
    (h : constructMinerTxPq P height medianSize coins size fee spendPub exNonce = some tx) :
    spendImages P tx = [] ∧ ∃ emissionChange, getBlockReward medianSize size coins fee =
      some (getOutputAmount tx, emissionChange) := by
  unfold constructMinerTxPq at h
  split at h
  · cases h
  rename_i reward emissionChange hreward
  cases h
  refine ⟨rfl, emissionChange, ?_⟩
  rw [hreward, getOutputAmount, map_singleton, sum_singleton]

/-- If the entries are right, a push adds up what the selection added up. -/
theorem Selection.sums {t : TemplateScan} {ds : List TransactionDetails} {b : Block} {db : Db} {E : Env} (hwf : db.Wf)
    (h : Selection E db t ds) (hrow : ReadyRow E db b (ds.map (·.tx))) (hb : b.transactionHashes = t.template.txHashes)
    (himages : spendImages E.P b.baseTransaction = []) (hsizes : ∀ d ∈ ds, d.blobSize = (toBinaryArray d.tx).length)
    (hfees : ∀ d ∈ ds, blockTxFee db d.tx = some d.fee) {scan : BlockScan}
    (hscan : pushBlockTransactions E db b (ds.map (·.tx)) = .ok scan) :
    scan.cumulativeBlockSize = t.totalSize + getObjectBinarySize b.baseTransaction ∧ scan.feeSummary = t.fee := by
  rcases pushBlockTransactions_row hwf hrow himages with hcoinbase | ⟨s, hs, hsize, hfee⟩
  · rw [hcoinbase] at hscan
    cases hscan
  · rw [hs] at hscan
    cases hscan
    rw [zip_details (hb.trans h.hashes), List.map_map] at hsize hfee
    refine ⟨?_, ?_⟩
    · rw [hsize, h.size, Nat.add_comm]
      congr 2
      exact map_congr_left fun d hd => (hsizes d hd).symm
    · rw [hfee, h.fee]
      congr 1
      refine map_congr_left fun d hd => ?_
      rw [Function.comp_apply, hfees d hd]
      rfl

/-- In every state the fee of an entry that passes on the chain is the one `pushBlock`
computes, unless it is a transfer filed under fee 0. If all that a template selects pass and
none of them is, the coinbase has the amount that `pushBlock` requires of it. -/
theorem template_reward (hK : Set.InjOn (getObjectHash N.P) {t | K t}) (h : (knownLts N K).Reachable s) :
    (∀ d ∈ s.pool.transactions.entries, (checkTransactionInputs N.toEnv s.db d.tx none).isSome →
      (requiredFee s.db d.tx = some d.fee ↔ (pqOnlyInputs d.tx = true → d.fee ≠ 0))) ∧
    ∀ spendPub exNonce b diffic s', s.getBlockTemplatePq N spendPub exNonce = (some (b, diffic), s') →
      s.currentBlockCumulSzLimit = updateNextCumulativeSizeLimit s.db → CoinbasesApart N s b →
      (∀ d ∈ s.pool.transactions.entries, d.id ∈ b.transactionHashes →
        (checkTransactionInputs N.toEnv s.db d.tx none).isSome ∧ (pqOnlyInputs d.tx = true → d.fee ≠ 0)) →
      ∃ txs s₁, s'.loadTransactions N b = (.all txs, s₁) ∧ ∀ scan, pushBlockTransactions N.toEnv s.db b txs = .ok scan →
          ∃ emissionChange, validateMinerTransaction s.db b s.db.getChainHeight scan.cumulativeBlockSize
            s.db.getCoinsInCirculation scan.feeSummary = some (getOutputAmount b.baseTransaction, emissionChange) := by
  have hs := steady_known h
  obtain ⟨hin, hpriced⟩ := priced_known h
  refine ⟨fun d hd hpasses => fee_iff hK hs hin hpriced hd hpasses, ?_⟩
  intro spendPub exNonce b diffic s' htemplate hlimit hcoinbases hselected
  unfold Node.getBlockTemplatePq at htemplate
  dsimp only at htemplate
  split at htemplate
  · cases htemplate
  split at htemplate
  · cases htemplate
  rename_i hashes base s₂ hselect
  obtain ⟨p, limit, hp, hview, hdb, hview', hhashes, size, hbase, hsize⟩ := selectTemplate_some hselect
  dsimp only at hp hview hdb hview' hhashes hbase hsize
  obtain ⟨hbhashes, hbbase, rfl⟩ : b.transactionHashes = hashes ∧ b.baseTransaction = base ∧ s₂ = s' := by
    cases htemplate
    exact ⟨rfl, rfl, rfl⟩
  -- the pool of the last filling holds the same transactions
  obtain ⟨ds, hsub, hsel, -⟩ := fillBlockTemplate_selects N.toEnv s.db p (s.currentBlockCumulSzLimit / 2) limit
  generalize fillBlockTemplate N.toEnv s.db p (s.currentBlockCumulSzLimit / 2) limit = t at hhashes hbase hsize hsel
  have hok : NodeOk N { s with pool := p } := by
    rw [NodeOk]
    simp only [hview]
    exact hs.ok
  have hb := hbhashes.trans hhashes
  have hchosen : ∀ e ∈ ds, ∃ d ∈ s.pool.transactions.entries, d.tx = e.tx ∧ d.fee = e.fee ∧ d.blobSize = e.blobSize ∧
      d.id ∈ b.transactionHashes := by
    intro e he
    obtain ⟨d, hd, info, rfl⟩ := hp e (hsub.subset he)
    refine ⟨d, hd, rfl, rfl, rfl, ?_⟩
    rw [hb, hsel.hashes]
    exact List.mem_map.mpr ⟨_, he, rfl⟩
  have hpasses : ∀ e ∈ ds, (checkTransactionInputs N.toEnv s.db e.tx none).isSome := by
    intro e he
    obtain ⟨d, hd, htx, -, -, hid⟩ := hchosen e he
    rw [← htx]
    exact (hselected d hd hid).1
  have hfees : ∀ e ∈ ds, blockTxFee s.db e.tx = some e.fee := by
    intro e he
    obtain ⟨d, hd, htx, hfee, -, hid⟩ := hchosen e he
    obtain ⟨hpass, hnonzero⟩ := hselected d hd hid
    rw [← htx, ← hfee, blockTxFee_eq (hs.ok.pool _ _ (view_of_mem hd)).2]
    exact (fee_iff hK hs hin hpriced hd hpass).mpr hnonzero
  have hsizes : ∀ e ∈ ds, e.blobSize = (toBinaryArray e.tx).length := by
    intro e he
    obtain ⟨d, hd, htx, -, hblob, -⟩ := hchosen e he
    rw [← htx, ← hblob, (hpriced d hd).size]
    exact (hin.pool _ _ (view_of_mem hd)).2
  have hrow := hsel.row (s := { s with pool := p }) hsub hpasses hok
    ⟨by rw [hview]; exact hcoinbases.own, by rw [hview]; exact hcoinbases.stored⟩ hb
  obtain ⟨s₁, hload, -⟩ := hsel.loads (s := { s with pool := p }) hsub hok hb hdb (hview'.trans hview.symm)
  refine ⟨_, s₁, hload, ?_⟩
  intro scan hscan
  obtain ⟨himages, emissionChange, hreward⟩ := constructMinerTxPq_some hbase
  rw [← hbbase] at himages hreward hsize
  obtain ⟨hcumulative, hfee⟩ := hsel.sums hs.ok.built.wf hrow hb himages hsizes hfees hscan
  have hpos := hs.ok.built.pos
  refine ⟨emissionChange, ?_⟩
  rw [hlimit, getBlockReward_limit, hsize] at hreward
  unfold validateMinerTransaction
  dsimp only
  rw [if_neg (by omega), hcumulative, hfee, hreward]
  simp only [if_true]

/-! ### Runs -/

/-- A transfer of the genesis output that pays 10. -/
def flatSpend : Transaction := toyTransfer [(getObjectHash flatNode.P flatGenesis.baseTransaction, toyRho 0)] 990

def flatSpendId : Hash := getObjectHash flatNode.P flatSpend

/-- The transfer arrives. -/
def flatArrived (s : Node) : Node := (handleIncomingTx flatNode s (toBinaryArray flatSpend) false).2

/-- What a push makes of a template that holds the transfer alone. -/
def flatVerdict (s : Node) (b : Block) : Option (Option (UInt64 × UInt64)) :=
  match pushBlockTransactions flatNode.toEnv s.db b [flatSpend] with
  | .error _ => none
  | .ok scan => some (validateMinerTransaction s.db b s.db.getChainHeight scan.cumulativeBlockSize
      s.db.getCoinsInCirculation scan.feeSummary)

def flatKnown (tx : Transaction) : Prop := tx ∈ [flatGenesis.baseTransaction, flatSpend]

theorem flatKnown_injOn : Set.InjOn (getObjectHash flatNode.P) {tx | flatKnown tx} := by
  have hne : getObjectHash flatNode.P flatGenesis.baseTransaction ≠ flatSpendId := by decide +kernel
  intro x hx y hy he
  rcases mem_pair.mp hx with rfl | rfl
  · rcases mem_pair.mp hy with rfl | rfl
    · rfl
    · exact absurd he hne
  · rcases mem_pair.mp hy with rfl | rfl
    · exact absurd he.symm hne
    · rfl

theorem poolIn_of_entries {K : Transaction → Prop} {s : Node} (h : ∀ d ∈ s.pool.transactions.entries, K d.tx) :
    PoolIn K s := by
  intro id tx htx
  obtain ⟨d, hd, -, rfl⟩ := view_eq_some.mp htx
  exact h d hd

/-- Genesis, and then the transfer, which is relayed. -/
def flatStart : Node :=
  (Node.new.pushBlock flatNode flatGenesis (flatNode.prims.getBlockHash flatGenesis) none).2

theorem flatArrived_known : (knownLts flatNode flatKnown).Reachable (flatArrived flatStart) := by
  obtain ⟨hpush, hempty, hone⟩ := of_decide_eq_true (show
    decide ((Node.new.pushBlock flatNode flatGenesis (flatNode.prims.getBlockHash flatGenesis) none).1 = .returned true ∧
      flatStart.pool.transactions.entries.map (·.tx) = [] ∧
      (flatArrived flatStart).pool.transactions.entries.map (·.tx) = [flatSpend]) = true by decide +kernel)
  have hstart : (knownLts flatNode flatKnown).Init flatStart := by
    refine ⟨⟨flatGenesis, mem_cons_self, rfl, ?_⟩, poolIn_of_entries ?_⟩
    · unfold flatStart
      rw [← hpush]
    · intro d hd
      rw [map_eq_nil_iff.mp hempty] at hd
      cases hd
  refine (Lts.Reachable.init hstart).step ⟨.pool (.transaction (toBinaryArray flatSpend) false), poolIn_of_entries ?_⟩
  intro d hd
  have hmem : d.tx ∈ [flatSpend] := hone ▸ List.mem_map_of_mem hd
  exact mem_cons_of_mem _ hmem

/-- The transfer is filed under its fee, and its template has the right reward. -/
theorem template_reward_flatSpend :
    ∃ (s : Node) (b : Block) (txs : List Transaction) (scan : BlockScan),
      (knownLts flatNode flatKnown).Reachable s ∧ s.pool.transactions.entries.length = 1 ∧
      (∀ d ∈ s.pool.transactions.entries, requiredFee s.db d.tx = some d.fee) ∧
      (s.getBlockTemplatePq flatNode toyKey []).1.map Prod.fst = some b ∧
      ((s.getBlockTemplatePq flatNode toyKey []).2.loadTransactions flatNode b).1 = .all txs ∧
      pushBlockTransactions flatNode.toEnv s.db b txs = .ok scan ∧
      ∃ emissionChange, validateMinerTransaction s.db b s.db.getChainHeight scan.cumulativeBlockSize
        s.db.getCoinsInCirculation scan.feeSummary = some (getOutputAmount b.baseTransaction, emissionChange) := by
  have hreach := flatArrived_known
  have hp : let s := flatArrived flatStart
      (decide (s.pool.transactions.entries.length = 1 ∧
        (∀ d ∈ s.pool.transactions.entries, (checkTransactionInputs flatNode.toEnv s.db d.tx none).isSome ∧ d.fee ≠ 0) ∧
        s.currentBlockCumulSzLimit = updateNextCumulativeSizeLimit s.db) &&
      (s.getBlockTemplatePq flatNode toyKey []).1.any fun r =>
        decide (s.pool.view (getObjectHash flatNode.P r.1.baseTransaction) = none ∧
          ∀ sb ∈ s.db.storedBlocks, s.pool.view (getObjectHash flatNode.P sb.block.baseTransaction) = none) &&
        match ((s.getBlockTemplatePq flatNode toyKey []).2.loadTransactions flatNode r.1).1 with
        | .all txs => (pushBlockTransactions flatNode.toEnv s.db r.1 txs).toOption.isSome
        | _ => false) = true := by decide +kernel
  generalize flatArrived flatStart = s at hreach hp
  rw [Bool.and_eq_true, decide_eq_true_eq] at hp
  obtain ⟨⟨hone, hentries, hlimit⟩, hp⟩ := hp
  obtain ⟨⟨b, diffic⟩, htemplate, hp⟩ := (Option.any_eq_true _ _).mp hp
  rw [Bool.and_eq_true, decide_eq_true_eq] at hp
  obtain ⟨⟨hown, hstored⟩, hpush⟩ := hp
  obtain ⟨hfees, hreward⟩ := template_reward flatKnown_injOn hreach
  obtain ⟨txs, s₁, hload, hvalid⟩ := hreward toyKey [] b diffic _ (Prod.ext htemplate rfl) hlimit ⟨hown, hstored⟩
    (fun d hd _ => ⟨(hentries d hd).1, fun _ => (hentries d hd).2⟩)
  simp only [hload] at hpush
  cases hscan : pushBlockTransactions flatNode.toEnv s.db b txs with
  | error e =>
    rw [hscan] at hpush
    cases hpush
  | ok scan =>
    refine ⟨s, b, txs, scan, hreach, hone, ?_, by rw [htemplate]; rfl, by rw [hload], hscan, hvalid scan hscan⟩
    intro d hd
    exact (hfees d hd (hentries d hd).1).mpr fun _ => (hentries d hd).2

/-- The transfer is mined. -/
def flatSpending : Block := flatBlock (flatId flatGenesis) 1 1090 8020 [flatSpendId]

/-- A branch without the transfer replaces the block that holds it. The transfer comes back
with fee 0, though it pays 10, and the next template is refused for its reward. -/
theorem unpaid_template :
    ∃ s, (nodeLts flatNode).Reachable s ∧
      (∃ d ∈ s.pool.transactions.entries, d.id ∈ (s.fillBlockTemplate flatNode 100000 100000).1 ∧
        requiredFee s.db d.tx = some 10 ∧ d.fee = 0) ∧
      ∃ b diffic s', s.getBlockTemplatePq flatNode toyKey [] = (some (b, diffic), s') ∧
        b.transactionHashes = [flatSpendId] ∧ flatVerdict s b = some none := by
  obtain ⟨s, hrun, hp⟩ := (Option.any_eq_true _ _).mp (show
    (offerBlocks flatNode (fun _ _ => true) 2 flatGenesis []).any (fun s =>
      ([flatSpending, forkOne, forkTwo].foldlM (fun s b => (addNewBlock flatNode 2 s b none).map Prod.snd)
        (flatArrived s)).any fun s =>
          decide (∃ d ∈ s.pool.transactions.entries, d.id ∈ (s.fillBlockTemplate flatNode 100000 100000).1 ∧
            requiredFee s.db d.tx = some 10 ∧ d.fee = 0) &&
          (s.getBlockTemplatePq flatNode toyKey []).1.any fun r =>
            decide (r.1.transactionHashes = [flatSpendId] ∧ flatVerdict s r.1 = some none)) = true by
    decide +kernel)
  obtain ⟨s', hblocks, hp⟩ := (Option.any_eq_true _ _).mp hp
  rw [Bool.and_eq_true, decide_eq_true_eq] at hp
  obtain ⟨hunpaid, hp⟩ := hp
  obtain ⟨⟨b, diffic⟩, htemplate, hr⟩ := (Option.any_eq_true _ _).mp hp
  have hstart : (guardedLts flatNode anyCall).Reachable s :=
    offerBlocks_run rfl trivial (fun _ _ hb => absurd hb not_mem_nil) hrun
  have harrived := hstart.step (.pool (.transaction (toBinaryArray flatSpend) false))
  have hreach := foldlM_run (M := nodeLts flatNode) .inl (guarded_node harrived) hblocks
  exact ⟨s', hreach, hunpaid, b, diffic, _, Prod.ext htemplate rfl, of_decide_eq_true hr⟩

end Discrete.L4
