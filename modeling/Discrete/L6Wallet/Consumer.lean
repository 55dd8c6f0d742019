import Discrete.L6Wallet.Synchronizer

/-!
# The ledger as a consumer (`WalletLedgerConsumer.cpp`)

The synchronizer's callbacks: blocks are scanned and detached, and the ids of the
pool transactions that touched the wallet are kept in `poolTxs`, so that the node can
answer with the difference. A transaction is scanned when it enters that set and its
effects are taken back when it leaves it; while it is in the set it is not scanned
again.

`Consumer.blocks` is the scanned chain. `reserved_reachable`: an output of the
scanned chain that a transaction of `poolTxs` spends is marked spent and not offered,
in every run that meets `KeepsReserved`:

* no block records or confirms, unspent, an output that a transaction of `poolTxs`
  spends;
* no detached block holds the recorded spend of such an output;
* a transaction that leaves the set shares no recorded output with one that stays.

The first fails when the block that holds the output is detached and the output
comes back on the new branch: the record went with the block, the mark with the
record, and the pending spender is not scanned again (`reconfirmed_output_offered`).
-/
namespace Discrete.L6
open List Option L1 L2 L3

structure Consumer where
  ledger : Ledger
  poolTxs : Finset Hash
  /-- The scanned chain, from height 0. -/
  blocks : List CompleteBlock

/-! ## Callbacks -/

namespace Consumer
variable (W : WalletPrimitives) (V : TxView)

/-- mirrors WalletLedgerConsumer.cpp:206-218 -/
def addUnconfirmedIfNew (C : Consumer) (txid : Hash) : Consumer :=
  if txid ∈ C.poolTxs then C
  else
    match V.tx txid with
    | none => C
    | some tx =>
      let r := C.ledger.processTransaction W tx txid unconfirmedHeight 0
      { C with ledger := r.1, poolTxs := if r.2 then insert txid C.poolTxs else C.poolTxs }

/-- mirrors WalletLedgerConsumer.cpp:200-204 -/
def removeUnconfirmedTransaction (C : Consumer) (txid : Hash) : Consumer :=
  { C with ledger := C.ledger.removeUnconfirmedTransaction txid, poolTxs := C.poolTxs.erase txid }

/-- mirrors WalletLedgerConsumer.cpp:167-187 -/
def onPoolUpdated (C : Consumer) (added deleted : List Hash) : Consumer :=
  deleted.foldl removeUnconfirmedTransaction (added.foldl (addUnconfirmedIfNew W V) C)

/-- mirrors WalletLedgerConsumer.cpp:150-165 -/
def onBlockchainDetach (C : Consumer) (height : Nat) : Consumer :=
  { C with ledger := C.ledger.rollbackToHeight (UInt32.ofNat height), blocks := C.blocks.take height }

def onNewBlocks (C : Consumer) (blocks : List CompleteBlock) (stop : Option ScanStop) : Consumer :=
  let r := L6.onNewBlocks W C.ledger C.blocks.length blocks stop
  { C with ledger := r.1, blocks := C.blocks ++ blocks.take r.2 }

end Consumer

inductive ConsumerEvent where
  | newBlocks (blocks : List CompleteBlock) (stop : Option ScanStop)
  | detach (height : Nat)
  | poolUpdated (added deleted : List Hash)
  | addUnconfirmed (txid : Hash)
  | removeUnconfirmed (txid : Hash)

/-- The block's transactions are those their ids name. -/
def CompleteBlock.From (V : TxView) (b : CompleteBlock) : Prop := ∀ x ∈ b.transactions, V.tx x.1 = some x.2

instance (V : TxView) (b : CompleteBlock) : Decidable (b.From V) := inferInstanceAs (Decidable (∀ _ ∈ _, _))

section
variable (W : WalletPrimitives) (V : TxView)

/-- `updateConsumers` gives new blocks from the end of the scanned chain and detaches
inside it; the node computes a pool update against `poolTxs`. -/
def Consumer.step (C : Consumer) : ConsumerEvent → Option Consumer
  | .newBlocks blocks stop =>
    if C.blocks.length + blocks.length ≤ unconfirmedHeight.toNat ∧ ∀ b ∈ blocks, b.From V then
      some (C.onNewBlocks W blocks stop)
    else none
  | .detach height => if height < C.blocks.length then some (C.onBlockchainDetach height) else none
  | .poolUpdated added deleted =>
    if (∀ t ∈ added, t ∉ C.poolTxs) ∧ ∀ t ∈ deleted, t ∈ C.poolTxs then some (C.onPoolUpdated W V added deleted)
    else none
  | .addUnconfirmed txid => some (C.addUnconfirmedIfNew W V txid)
  | .removeUnconfirmed txid => some (C.removeUnconfirmedTransaction txid)

def consumerMachine (K : LedgerKeys) : Machine Consumer ConsumerEvent where
  Init C := C = ⟨Ledger.fresh K, ∅, []⟩
  step := Consumer.step W V

/-! ## The condition -/

/-- The output with this nullifier is recorded as spent. -/
def OutputTable.Taken (c : OutputTable) (nf : Hash) : Prop := ∃ o ∈ c.find nf, o.spent = true

instance (c : OutputTable) (nf : Hash) : Decidable (OutputTable.Taken c nf) :=
  inferInstanceAs (Decidable (∃ _ ∈ _, _))

/-- `A` and `D` spend no recorded output both. -/
def NoConflict (L : Ledger) (A D : Hash) : Prop :=
  ∀ ta ∈ V.tx A, ∀ td ∈ V.tx D, ∀ nf ∈ spentNullifiers W ta, nf ∈ spentNullifiers W td → L.outputs.find nf = none

instance (L : Ledger) (A D : Hash) : Decidable (NoConflict W V L A D) := by
  unfold NoConflict
  infer_instance

def KeepsReserved (C : Consumer) : ConsumerEvent → Prop
  | .newBlocks blocks _ => ∀ A ∈ C.poolTxs, ∀ tx ∈ V.tx A, ∀ b ∈ blocks.zipIdx C.blocks.length, ∀ x ∈ b.1.transactions,
      ∀ r ∈ receipts W (C.ledger.scanningKeys W) x.2 (UInt32.ofNat b.2),
        r.nullifier W x.1 ∈ spentNullifiers W tx → OutputTable.Taken C.ledger.outputs (r.nullifier W x.1)
  | .detach height => ∀ A ∈ C.poolTxs, ∀ tx ∈ V.tx A, ∀ nf ∈ spentNullifiers W tx, ∀ o ∈ C.ledger.outputs.find nf,
      ¬ Orphaned (UInt32.ofNat height) o.height → ¬ (o.spent = true ∧ Orphaned (UInt32.ofNat height) o.spentHeight)
  | .poolUpdated added deleted => ∀ D ∈ deleted, ∀ A ∈ C.poolTxs ∪ added.toFinset, A ∉ deleted →
      NoConflict W V C.ledger A D
  | .addUnconfirmed _ => True
  | .removeUnconfirmed D => ∀ A ∈ C.poolTxs, A ≠ D → NoConflict W V C.ledger A D

instance (C : Consumer) : (e : ConsumerEvent) → Decidable (KeepsReserved W V C e)
  | .newBlocks _ _ => by unfold KeepsReserved; infer_instance
  | .detach _ => by unfold KeepsReserved; infer_instance
  | .poolUpdated _ _ => by unfold KeepsReserved; infer_instance
  | .addUnconfirmed _ => inferInstanceAs (Decidable True)
  | .removeUnconfirmed _ => by unfold KeepsReserved; infer_instance

end

/-! ## Facts about the records

The heights of the records do not exceed `n`, spend marks name a spender, and what a
transaction of `P` spends is marked once it is confirmed. -/

structure Facts (W : WalletPrimitives) (V : TxView) (P : Finset Hash) (n : Nat) (c : OutputTable) : Prop where
  heights : ∀ nf, ∀ o ∈ c.find nf, o.height ≠ unconfirmedHeight → o.height.toNat ≤ n
  marked : ∀ nf, ∀ o ∈ c.find nf, o.spent = true → ∃ tx ∈ V.tx o.spentTxid, nf ∈ spentNullifiers W tx
  reserved : ∀ A ∈ P, ∀ tx ∈ V.tx A, ∀ nf ∈ spentNullifiers W tx, ∀ o ∈ c.find nf, o.height ≠ unconfirmedHeight →
    o.spent = true

/-- Records stay, stay spent and stay confirmed where they are. -/
def Grows (c c' : OutputTable) : Prop :=
  ∀ nf, ∀ o ∈ c.find nf, ∃ o' ∈ c'.find nf, (o.spent = true → o'.spent = true) ∧
    (o.height ≠ unconfirmedHeight → o'.height = o.height)

/-- A confirmed record, at `k` or below. -/
def Recorded (c : OutputTable) (nf : Hash) (k : Nat) : Prop :=
  ∃ o ∈ c.find nf, o.height ≠ unconfirmedHeight ∧ o.height.toNat ≤ k

section
variable {W : WalletPrimitives} {V : TxView} {P : Finset Hash} {n : Nat} {k : UInt32} {txid : Hash}

theorem Grows.refl (c : OutputTable) : Grows c c := fun _ o ho => ⟨o, ho, id, fun _ => rfl⟩

variable {c c' : OutputTable}

theorem Grows.trans {c'' : OutputTable} (h : Grows c c') (h' : Grows c' c'') : Grows c c'' := by
  intro nf o ho
  obtain ⟨o', ho', hs, hh⟩ := h nf o ho
  obtain ⟨o'', ho'', hs', hh'⟩ := h' nf o' ho'
  exact ⟨o'', ho'', fun hsp => hs' (hs hsp), fun hne => (hh' (hh hne ▸ hne)).trans (hh hne)⟩

variable {nf : Hash}

theorem Grows.taken (h : Grows c c') (ht : OutputTable.Taken c nf) : OutputTable.Taken c' nf := by
  obtain ⟨o, ho, hs⟩ := ht
  obtain ⟨o', ho', hs', -⟩ := h nf o ho
  exact ⟨o', ho', hs' hs⟩

theorem Grows.recorded (h : Grows c c') {m : Nat} (hr : Recorded c nf m) : Recorded c' nf m := by
  obtain ⟨o, ho, hne, hle⟩ := hr
  obtain ⟨o', ho', -, hh⟩ := h nf o ho
  exact ⟨o', ho', hh hne ▸ hne, hh hne ▸ hle⟩

theorem Facts.mono {m : Nat} (h : Facts W V P n c) (hm : n ≤ m) : Facts W V P m c :=
  ⟨fun nf o ho hne => (h.heights nf o ho hne).trans hm, h.marked, h.reserved⟩

theorem Facts.subset {Q : Finset Hash} (h : Facts W V P n c) (hq : Q ⊆ P) : Facts W V Q n c :=
  ⟨h.heights, h.marked, fun A hA => h.reserved A (hq hA)⟩

/-! ### One input -/

theorem Grows.spend (s : Scan) (nf : Hash) : Grows s.outputs (s.spend txid k nf).outputs := by
  intro nf' o ho
  rw [mem_def] at ho
  refine ⟨if nf' = nf then o.spendBy txid k else o, by rw [mem_def, s.find_spend, ho]; rfl, ?_⟩
  split
  · exact ⟨fun _ => o.spent_spendBy, fun _ => o.height_spendBy⟩
  · exact ⟨id, fun _ => rfl⟩

/-- A spend mark is the one set now or an older one. -/
theorem PqWalletOutput.spentTxid_spendBy (o : PqWalletOutput) (txid : Hash) (k : UInt32) :
    (o.spendBy txid k).spentTxid = txid ∨ o.spent = true ∧ (o.spendBy txid k).spentTxid = o.spentTxid := by
  unfold spendBy
  split
  · exact .inl rfl
  · rename_i hs
    split
    · exact .inl rfl
    · exact .inr ⟨by simpa using hs, rfl⟩

variable {s : Scan} {tx : TransactionPrefix}

theorem Facts.spend (h : Facts W V P n s.outputs) (htx : tx ∈ V.tx txid) (hnf : nf ∈ spentNullifiers W tx) :
    Facts W V P n (s.spend txid k nf).outputs := by
  constructor
  · intro nf' o' ho' hne
    rw [mem_def, s.find_spend] at ho'
    obtain ⟨o, ho, rfl⟩ := map_eq_some_iff.mp ho'
    have hheight : (if nf' = nf then o.spendBy txid k else o).height = o.height := by
      split
      · exact o.height_spendBy
      · rfl
    rw [hheight] at hne ⊢
    exact h.heights nf' o ho hne
  · intro nf' o' ho' hs
    rw [mem_def, s.find_spend] at ho'
    obtain ⟨o, ho, rfl⟩ := map_eq_some_iff.mp ho'
    split at hs
    · rename_i e
      rw [if_pos e]
      rcases o.spentTxid_spendBy txid k with ht | ⟨hold, ht⟩
      · rw [ht, e]
        exact ⟨tx, htx, hnf⟩
      · rw [ht]
        exact h.marked nf' o ho hold
    · rename_i e
      rw [if_neg e]
      exact h.marked nf' o ho hs
  · intro A hA ta hta nf' hnf' o' ho' hne
    rw [mem_def, s.find_spend] at ho'
    obtain ⟨o, ho, rfl⟩ := map_eq_some_iff.mp ho'
    by_cases e : nf' = nf
    · rw [if_pos e]
      exact o.spent_spendBy
    · rw [if_neg e] at hne ⊢
      exact h.reserved A hA ta hta nf' hnf' o ho hne

/-! ### One receipt -/

/-- A transaction of `P` spends the output. -/
def Threatened (W : WalletPrimitives) (V : TxView) (P : Finset Hash) (nf : Hash) : Prop :=
  ∃ A ∈ P, ∃ tx ∈ V.tx A, nf ∈ spentNullifiers W tx

theorem Grows.receive (s : Scan) (r : Receipt) : Grows s.outputs (s.receive W txid k r).outputs := by
  intro nf o ho
  rw [mem_def] at ho
  simp only [mem_def, s.find_receive, ho]
  split
  · refine ⟨_, rfl, ?_⟩
    rw [Receipt.applyTo]
    split
    · rename_i hp
      exact ⟨id, fun hne => absurd hp.1 hne⟩
    · exact ⟨id, fun _ => rfl⟩
  · exact ⟨o, rfl, id, fun _ => rfl⟩

theorem Recorded.receive {r : Receipt} (h : Facts W V P k.toNat s.outputs) (hk : k ≠ unconfirmedHeight) :
    Recorded (s.receive W txid k r).outputs (r.nullifier W txid) k.toNat := by
  refine ⟨r.applyTo W txid k (s.outputs.find (r.nullifier W txid)), by rw [mem_def, s.find_receive, if_pos rfl], ?_⟩
  cases hfind : s.outputs.find (r.nullifier W txid) with
  | none => exact ⟨hk, Nat.le_refl _⟩
  | some o =>
    rw [Receipt.applyTo]
    split
    · exact ⟨hk, Nat.le_refl _⟩
    · rename_i hp
      have hne : o.height ≠ unconfirmedHeight := fun e => hp ⟨e, hk⟩
      exact ⟨hne, h.heights _ o hfind hne⟩

/-- A receipt seen in a block must not confirm, unspent, what a transaction of `P` spends. -/
theorem Facts.receive {r : Receipt} (h : Facts W V P n s.outputs) (hk : k ≠ unconfirmedHeight → k.toNat ≤ n)
    (hr : k ≠ unconfirmedHeight → Threatened W V P (r.nullifier W txid) →
      OutputTable.Taken s.outputs (r.nullifier W txid)) : Facts W V P n (s.receive W txid k r).outputs := by
  -- the record under the receipt's nullifier: untouched, confirmed at `k`, or new
  have hcases : ∀ {o'}, (s.receive W txid k r).outputs.find (r.nullifier W txid) = some o' →
      (s.outputs.find (r.nullifier W txid) = some o') ∨
      (∃ o, s.outputs.find (r.nullifier W txid) = some o ∧ k ≠ unconfirmedHeight ∧ o' = o.confirmAt k r.unlockHeight) ∨
      (s.outputs.find (r.nullifier W txid) = none ∧ o' = r.record W txid k) := by
    intro o' ho'
    rw [s.find_receive, if_pos rfl, some.injEq] at ho'
    subst ho'
    cases hfind : s.outputs.find (r.nullifier W txid) with
    | none => exact .inr (.inr ⟨rfl, rfl⟩)
    | some o =>
      rw [Receipt.applyTo]
      split
      · rename_i hp
        exact .inr (.inl ⟨o, rfl, hp.2, rfl⟩)
      · exact .inl rfl
  have hother : ∀ {nf : Hash}, nf ≠ r.nullifier W txid →
      (s.receive W txid k r).outputs.find nf = s.outputs.find nf := by
    intro nf hne
    rw [s.find_receive, if_neg hne]
  constructor
  · intro nf o' ho' hne
    by_cases e : nf = r.nullifier W txid
    · subst e
      rcases hcases ho' with ho | ⟨o, -, hk', rfl⟩ | ⟨-, rfl⟩
      · exact h.heights _ o' ho hne
      · exact hk hk'
      · exact hk hne
    · exact h.heights nf o' (hother e ▸ ho') hne
  · intro nf o' ho' hs
    by_cases e : nf = r.nullifier W txid
    · subst e
      rcases hcases ho' with ho | ⟨o, ho, -, rfl⟩ | ⟨-, rfl⟩
      · exact h.marked _ o' ho hs
      · exact h.marked _ o ho hs
      · cases hs
    · exact h.marked nf o' (hother e ▸ ho') hs
  · intro A hA ta hta nf hnf o' ho' hne
    by_cases e : nf = r.nullifier W txid
    · subst e
      have htaken : k ≠ unconfirmedHeight → OutputTable.Taken s.outputs (r.nullifier W txid) := fun hk' =>
        hr hk' ⟨A, hA, ta, hta, hnf⟩
      rcases hcases ho' with ho | ⟨o, ho, hk', rfl⟩ | ⟨hnone, rfl⟩
      · exact h.reserved A hA ta hta _ hnf o' ho hne
      · obtain ⟨o1, ho1, hs⟩ := htaken hk'
        rw [mem_def, ho, some.injEq] at ho1
        exact ho1 ▸ hs
      · obtain ⟨o1, ho1, -⟩ := htaken hne
        rw [mem_def, hnone] at ho1
        cases ho1
    · exact h.reserved A hA ta hta nf hnf o' (hother e ▸ ho') hne

/-! ### A transaction -/

theorem Facts.spends (htx : tx ∈ V.tx txid) {l : List Hash} (hl : ∀ nf ∈ l, nf ∈ spentNullifiers W tx)
    (h : Facts W V P n s.outputs) :
    Facts W V P n (l.foldl (Scan.spend txid k) s).outputs ∧ Grows s.outputs (l.foldl (Scan.spend txid k) s).outputs :=
  foldlRecOn (motive := fun t : Scan => Facts W V P n t.outputs ∧ Grows s.outputs t.outputs) l _ ⟨h, .refl _⟩
    fun t ⟨ht, hgrows⟩ nf hnf => ⟨ht.spend htx (hl nf hnf), hgrows.trans (Grows.spend t nf)⟩

theorem Facts.receives (hk : k ≠ unconfirmedHeight → k.toNat ≤ n) {l : List Receipt} {s : Scan}
    (hl : ∀ r ∈ l, k ≠ unconfirmedHeight → Threatened W V P (r.nullifier W txid) →
      OutputTable.Taken s.outputs (r.nullifier W txid)) (h : Facts W V P n s.outputs) :
    Facts W V P n (l.foldl (Scan.receive W txid k) s).outputs ∧
      Grows s.outputs (l.foldl (Scan.receive W txid k) s).outputs :=
  foldlRecOn (motive := fun t : Scan => Facts W V P n t.outputs ∧ Grows s.outputs t.outputs) l _ ⟨h, .refl _⟩
    fun t ⟨ht, hgrows⟩ r hr =>
      ⟨ht.receive hk fun hk' hthreat => hgrows.taken (hl r hr hk' hthreat), hgrows.trans (Grows.receive t r)⟩

theorem recorded_receives (hk : k ≠ unconfirmedHeight) :
    ∀ {l : List Receipt} {s : Scan}, (∀ r ∈ l, Threatened W V P (r.nullifier W txid) →
        OutputTable.Taken s.outputs (r.nullifier W txid)) → Facts W V P k.toNat s.outputs →
      ∀ r ∈ l, Recorded (l.foldl (Scan.receive W txid k) s).outputs (r.nullifier W txid) k.toNat
  | [], _, _, _ => by simp
  | r :: l, s, hl, h => by
    have hone : Grows s.outputs (s.receive W txid k r).outputs := Grows.receive s r
    have hfacts := h.receive (k := k) (fun _ => Nat.le_refl _) (fun _ => hl r mem_cons_self)
    have hrest : ∀ r' ∈ l, Threatened W V P (r'.nullifier W txid) →
        OutputTable.Taken (s.receive W txid k r).outputs (r'.nullifier W txid) := fun r' hm ht =>
      hone.taken (hl r' (mem_cons_of_mem r hm) ht)
    intro r' hr'
    rcases mem_cons.mp hr' with rfl | hr'
    · have hgrows := (Facts.receives (fun _ => Nat.le_refl _) (fun r' hm _ => hrest r' hm) hfacts).2
      exact hgrows.recorded (Recorded.receive h hk)
    · exact recorded_receives hk hrest hfacts r' hr'

/-- Some of the inputs, then some of the outputs: what an exception leaves, too. -/
theorem Facts.scan (h : Facts W V P n c) (htx : tx ∈ V.tx txid)
    (hk : k ≠ unconfirmedHeight → k.toNat ≤ n) {sp : List Hash} (hsp : ∀ nf ∈ sp, nf ∈ spentNullifiers W tx)
    {rc : List Receipt} (hrc : ∀ r ∈ rc, k ≠ unconfirmedHeight → Threatened W V P (r.nullifier W txid) →
      OutputTable.Taken c (r.nullifier W txid)) :
    Facts W V P n (rc.foldl (Scan.receive W txid k) (sp.foldl (Scan.spend txid k) ⟨c, 0, 0, false⟩)).outputs ∧
      Grows c (rc.foldl (Scan.receive W txid k) (sp.foldl (Scan.spend txid k) ⟨c, 0, 0, false⟩)).outputs := by
  obtain ⟨hfacts, hgrows⟩ := Facts.spends (k := k) (s := ⟨c, 0, 0, false⟩) htx hsp h
  obtain ⟨hfacts', hgrows'⟩ := Facts.receives hk (fun r hr hk' ht => hgrows.taken (hrc r hr hk' ht)) hfacts
  exact ⟨hfacts', hgrows.trans hgrows'⟩

section
variable {L : Ledger} {x : Hash × TransactionPrefix} (h : Facts W V P n L.outputs) (htx : x.2 ∈ V.tx x.1)
  (hk : k ≠ unconfirmedHeight → k.toNat ≤ n)
  (hrc : ∀ r ∈ receipts W (L.scanningKeys W) x.2 k, k ≠ unconfirmedHeight → Threatened W V P (r.nullifier W x.1) →
    OutputTable.Taken L.outputs (r.nullifier W x.1))
include h htx hk hrc

theorem Facts.scanReader (timestamp : UInt64) :
    Facts W V P n (L.scanReader W k timestamp x).outputs ∧ Grows L.outputs (L.scanReader W k timestamp x).outputs := by
  unfold Ledger.scanReader Ledger.processTransaction
  split
  · exact ⟨h, .refl _⟩
  · exact h.scan htx hk (fun _ hnf => hnf) hrc

theorem Facts.interrupt (step : Nat) :
    Facts W V P n (L.interrupt W x.2 x.1 k step).outputs ∧ Grows L.outputs (L.interrupt W x.2 x.1 k step).outputs := by
  unfold Ledger.interrupt
  split
  · exact ⟨h, .refl _⟩
  · exact h.scan htx hk (fun _ hnf => mem_of_mem_take hnf) fun r hr => hrc r (mem_of_mem_take hr)

end

theorem recorded_scanReader {L : Ledger} {x : Hash × TransactionPrefix} (h : Facts W V P k.toNat L.outputs)
    (htx : x.2 ∈ V.tx x.1) (hk : k ≠ unconfirmedHeight)
    (hrc : ∀ r ∈ receipts W (L.scanningKeys W) x.2 k, Threatened W V P (r.nullifier W x.1) →
      OutputTable.Taken L.outputs (r.nullifier W x.1)) (hv : ¬ x.2.version < transactionVersion1) (timestamp : UInt64) :
    ∀ r ∈ receipts W (L.scanningKeys W) x.2 k,
      Recorded (L.scanReader W k timestamp x).outputs (r.nullifier W x.1) k.toNat := by
  obtain ⟨hfacts, hgrows⟩ := Facts.spends (k := k) (s := ⟨L.outputs, 0, 0, false⟩) htx (fun _ hnf => hnf) h
  have hrec := recorded_receives hk (fun r hr ht => hgrows.taken (hrc r hr ht)) hfacts
  intro r hr
  rw [Ledger.scanReader, Ledger.processTransaction, if_neg hv]
  exact hrec r hr

/-! ### Blocks -/

/-- The transactions of a block, one after another, from a ledger that has grown from `c`. -/
theorem Facts.scanReaders {K : LedgerKeys} {c : OutputTable} (hk : k ≠ unconfirmedHeight) (timestamp : UInt64) :
    ∀ {l : List (Hash × TransactionPrefix)} {L : Ledger}, L.keys = K → Grows c L.outputs →
      Facts W V P k.toNat L.outputs → (∀ x ∈ l, V.tx x.1 = some x.2) →
      (∀ x ∈ l, ∀ r ∈ receipts W (K.ensureDepositKeys W K.depositCount) x.2 k,
        Threatened W V P (r.nullifier W x.1) → OutputTable.Taken c (r.nullifier W x.1)) →
      Facts W V P k.toNat (l.foldl (Ledger.scanReader W k timestamp) L).outputs ∧
        Grows L.outputs (l.foldl (Ledger.scanReader W k timestamp) L).outputs ∧
        (l.foldl (Ledger.scanReader W k timestamp) L).keys = K ∧ ∀ x ∈ l, ¬ x.2.version < transactionVersion1 →
          ∀ r ∈ receipts W (K.ensureDepositKeys W K.depositCount) x.2 k,
            Recorded (l.foldl (Ledger.scanReader W k timestamp) L).outputs (r.nullifier W x.1) k.toNat
  | [], L, hkeys, _, h, _, _ => ⟨h, .refl _, hkeys, by simp⟩
  | x :: l, L, hkeys, hc, h, htx, hrc => by
    have hscan : L.scanningKeys W = K.ensureDepositKeys W K.depositCount := by rw [Ledger.scanningKeys, hkeys]
    have hx : ∀ r ∈ receipts W (L.scanningKeys W) x.2 k, Threatened W V P (r.nullifier W x.1) →
        OutputTable.Taken L.outputs (r.nullifier W x.1) := fun r hr ht =>
      hc.taken (hrc x mem_cons_self r (hscan ▸ hr) ht)
    have hmem := htx x mem_cons_self
    obtain ⟨hfacts, hgrows⟩ := h.scanReader hmem (fun _ => Nat.le_refl _) (fun r hr _ => hx r hr) timestamp
    have hkeys' : (L.scanReader W k timestamp x).keys = K :=
      (L.keys_processTransaction x.2 x.1 k timestamp).trans hkeys
    obtain ⟨hf, hg, hk', hrec⟩ := Facts.scanReaders hk timestamp hkeys' (hc.trans hgrows) hfacts
      (fun y hy => htx y (mem_cons_of_mem x hy)) (fun y hy => hrc y (mem_cons_of_mem x hy))
    refine ⟨hf, hgrows.trans hg, hk', fun y hy hv r hr => ?_⟩
    rcases mem_cons.mp hy with rfl | hy
    · exact hg.recorded (recorded_scanReader h hmem hk hx hv timestamp r (hscan ▸ hr))
    · exact hrec y hy hv r hr

end

/-! ## Runs -/

/-- What the block at height `i` pays to the wallet is recorded and confirmed. -/
def RecordedBlock (W : WalletPrimitives) (K : LedgerKeys) (c : OutputTable) (i : Nat) (b : CompleteBlock) : Prop :=
  b.block.isSome → ∀ x ∈ b.transactions, ¬ x.2.version < transactionVersion1 →
    ∀ r ∈ receipts W (K.ensureDepositKeys W K.depositCount) x.2 (UInt32.ofNat i), Recorded c (r.nullifier W x.1) i

structure ConsumerInv (W : WalletPrimitives) (V : TxView) (K : LedgerKeys) (C : Consumer) : Prop where
  keys : C.ledger.keys = K
  length : C.blocks.length ≤ unconfirmedHeight.toNat
  facts : Facts W V C.poolTxs C.blocks.length C.ledger.outputs
  recorded : ∀ i b, C.blocks[i]? = some b → RecordedBlock W K C.ledger.outputs i b

section
variable {W : WalletPrimitives} {V : TxView} {K : LedgerKeys} {C : Consumer}

/-- A block does not bring, unspent, what a transaction of `P` spends. -/
def SafeBlock (W : WalletPrimitives) (V : TxView) (K : LedgerKeys) (P : Finset Hash) (c : OutputTable)
    (b : CompleteBlock × Nat) : Prop :=
  ∀ x ∈ b.1.transactions, ∀ r ∈ receipts W (K.ensureDepositKeys W K.depositCount) x.2 (UInt32.ofNat b.2),
    Threatened W V P (r.nullifier W x.1) → OutputTable.Taken c (r.nullifier W x.1)

namespace ConsumerInv

variable {c : OutputTable} (h : ConsumerInv W V K C) (hc : Grows c C.ledger.outputs)
  (hlen : C.blocks.length + 1 ≤ unconfirmedHeight.toNat)
include hlen

theorem height_lt :
    (UInt32.ofNat C.blocks.length).toNat = C.blocks.length ∧ UInt32.ofNat C.blocks.length ≠ unconfirmedHeight := by
  have hmax : unconfirmedHeight.toNat < 2 ^ 32 := by decide
  have hval : (UInt32.ofNat C.blocks.length).toNat = C.blocks.length := by
    rw [UInt32.toNat_ofNat']
    omega
  refine ⟨hval, fun e => ?_⟩
  rw [e] at hval
  omega

include h hc

theorem scanBlock {b : CompleteBlock} (hfrom : b.From V) (hsafe : SafeBlock W V K C.poolTxs c (b, C.blocks.length)) :
    ConsumerInv W V K { C with
        ledger := C.ledger.scanBlock W (UInt32.ofNat C.blocks.length) b, blocks := C.blocks ++ [b] } ∧
      Grows C.ledger.outputs (C.ledger.scanBlock W (UInt32.ofNat C.blocks.length) b).outputs := by
  obtain ⟨hval, hne⟩ := height_lt hlen
  have hfacts : Facts W V C.poolTxs (UInt32.ofNat C.blocks.length).toNat C.ledger.outputs := hval.symm ▸ h.facts
  -- the body, whether the block has one or not
  have hbody : Facts W V C.poolTxs C.blocks.length (C.ledger.scanBody W (UInt32.ofNat C.blocks.length) b).outputs ∧
      Grows C.ledger.outputs (C.ledger.scanBody W (UInt32.ofNat C.blocks.length) b).outputs ∧
      (C.ledger.scanBody W (UInt32.ofNat C.blocks.length) b).keys = K ∧
      RecordedBlock W K (C.ledger.scanBody W (UInt32.ofNat C.blocks.length) b).outputs C.blocks.length b := by
    unfold Ledger.scanBody
    split
    · rename_i hnone
      exact ⟨h.facts, .refl _, h.keys, fun hsome => by simp [hnone] at hsome⟩
    · rename_i timestamp _
      obtain ⟨hf, hg, hkeys, hrec⟩ := Facts.scanReaders hne timestamp h.keys hc hfacts hfrom hsafe
      rw [hval] at hf hrec
      exact ⟨hf, hg, hkeys, fun _ => hrec⟩
  obtain ⟨hf, hg, hkeys, hrec⟩ := hbody
  have hlen' : (C.blocks ++ [b]).length = C.blocks.length + 1 := by simp
  refine ⟨⟨hkeys, hlen'.trans_le hlen, hlen' ▸ hf.mono (Nat.le_succ _), fun i b' hb' => ?_⟩, hg⟩
  rcases Nat.lt_trichotomy i C.blocks.length with hi | rfl | hi
  · rw [getElem?_append_left hi] at hb'
    exact fun hsome x hx hv r hr => hg.recorded (h.recorded i b' hb' hsome x hx hv r hr)
  · rw [getElem?_append_right (Nat.le_refl _), Nat.sub_self] at hb'
    obtain rfl : b = b' := by simpa using hb'
    exact hrec
  · rw [getElem?_eq_none (by dsimp only; omega)] at hb'
    cases hb'

omit hlen in
theorem scanBlocks {bs : List CompleteBlock} (hlen : C.blocks.length + bs.length ≤ unconfirmedHeight.toNat)
    (hfrom : ∀ b ∈ bs, b.From V) (hsafe : ∀ b ∈ bs.zipIdx C.blocks.length, SafeBlock W V K C.poolTxs c b) :
    ConsumerInv W V K { C with ledger := C.ledger.scanBlocks W C.blocks.length bs, blocks := C.blocks ++ bs } ∧
      Grows c (C.ledger.scanBlocks W C.blocks.length bs).outputs := by
  induction bs generalizing C with
  | nil =>
    rw [append_nil]
    exact ⟨h, hc⟩
  | cons b bs ih =>
    rw [length_cons] at hlen
    rw [zipIdx_cons] at hsafe
    obtain ⟨hone, hgrows⟩ := h.scanBlock hc (by omega) (hfrom b mem_cons_self) (hsafe _ mem_cons_self)
    have hlen' : (C.blocks ++ [b]).length = C.blocks.length + 1 := by simp
    have hrest := ih hone (hc.trans hgrows) (by dsimp only; omega) (fun b' hb' => hfrom b' (mem_cons_of_mem b hb'))
      (fun b' hb' => hsafe b' (mem_cons_of_mem _ (by rwa [hlen'] at hb')))
    rw [hlen', append_assoc] at hrest
    exact hrest

/-- Up to an exception. -/
theorem scanPart {b : CompleteBlock} (hfrom : b.From V) (hsafe : SafeBlock W V K C.poolTxs c (b, C.blocks.length))
    (stop : ScanStop) :
    ConsumerInv W V K { C with ledger := C.ledger.scanPart W (UInt32.ofNat C.blocks.length) b stop } := by
  obtain ⟨hval, hne⟩ := height_lt hlen
  have hfacts : Facts W V C.poolTxs (UInt32.ofNat C.blocks.length).toNat C.ledger.outputs := hval.symm ▸ h.facts
  have hpart : Facts W V C.poolTxs C.blocks.length (C.ledger.scanPart W (UInt32.ofNat C.blocks.length) b stop).outputs ∧
      Grows C.ledger.outputs (C.ledger.scanPart W (UInt32.ofNat C.blocks.length) b stop).outputs ∧
      (C.ledger.scanPart W (UInt32.ofNat C.blocks.length) b stop).keys = K := by
    unfold Ledger.scanPart
    split
    · exact ⟨h.facts, .refl _, h.keys⟩
    · rename_i timestamp _
      obtain ⟨hf, hg, hkeys, -⟩ := Facts.scanReaders hne timestamp h.keys hc hfacts
        (fun x hx => hfrom x (mem_of_mem_take hx)) (fun x hx => hsafe x (mem_of_mem_take (i := stop.tx) hx))
      dsimp only
      split
      · exact ⟨hf.mono hval.le, hg, hkeys⟩
      · rename_i x hx
        have hmem := mem_of_getElem? hx
        have hscan := congrArg (fun K : LedgerKeys => K.ensureDepositKeys W K.depositCount) hkeys
        obtain ⟨hf', hg'⟩ := hf.interrupt (hfrom x hmem) (fun _ => Nat.le_refl _)
          (fun r hr _ ht => (hc.trans hg).taken (hsafe x hmem r (hscan ▸ hr) ht)) stop.step
        refine ⟨hf'.mono hval.le, hg.trans hg', ?_⟩
        rw [← hkeys, Ledger.interrupt]
        split <;> rfl
  obtain ⟨hf, hg, hkeys⟩ := hpart
  exact ⟨hkeys, h.length, hf, fun i b' hb' hsome x hx hv r hr => hg.recorded (h.recorded i b' hb' hsome x hx hv r hr)⟩

omit hc hlen

theorem newBlocks {blocks : List CompleteBlock} {stop : Option ScanStop}
    (hlen : C.blocks.length + blocks.length ≤ unconfirmedHeight.toNat) (hfrom : ∀ b ∈ blocks, b.From V)
    (hg : KeepsReserved W V C (.newBlocks blocks stop)) : ConsumerInv W V K (C.onNewBlocks W blocks stop) := by
  have hsafe : ∀ b ∈ blocks.zipIdx C.blocks.length, SafeBlock W V K C.poolTxs C.ledger.outputs b := by
    intro b hb x hx r hr ht
    obtain ⟨A, hA, tx, htx, hnf⟩ := ht
    have hscan : C.ledger.scanningKeys W = K.ensureDepositKeys W K.depositCount := by rw [Ledger.scanningKeys, h.keys]
    exact hg A hA tx htx b hb x hx r (hscan ▸ hr) hnf
  unfold Consumer.onNewBlocks L6.onNewBlocks
  split
  · dsimp only
    rw [take_length]
    exact (h.scanBlocks (.refl _) hlen hfrom hsafe).1
  · rename_i s b hstop
    obtain ⟨s', hs', hb⟩ := bind_eq_some_iff.mp hstop
    obtain ⟨b', hb, e⟩ := map_eq_some_iff.mp hb
    cases e
    obtain ⟨hlt, -⟩ := List.getElem?_eq_some_iff.mp hb
    have htake : (blocks.take s.block).length = s.block := length_take_of_le hlt.le
    have hzip : (b, C.blocks.length + s.block) ∈ blocks.zipIdx C.blocks.length := by
      rw [mk_add_mem_zipIdx_iff_getElem?]
      exact hb
    have hsub : ∀ b ∈ (blocks.take s.block).zipIdx C.blocks.length, b ∈ blocks.zipIdx C.blocks.length := by
      intro b hb
      rw [mem_zipIdx_iff_le_and_getElem?_sub] at hb ⊢
      obtain ⟨hle, hb⟩ := hb
      rw [getElem?_take] at hb
      split at hb
      · exact ⟨hle, hb⟩
      · cases hb
    obtain ⟨hinv, hgrows⟩ := h.scanBlocks (.refl _) (by omega)
      (fun b' (hb' : b' ∈ blocks.take s.block) => hfrom b' (mem_of_mem_take hb'))
      (fun b' hb' => hsafe b' (hsub b' hb'))
    have hlen' : (C.blocks ++ blocks.take s.block).length = C.blocks.length + s.block := by
      rw [length_append, htake]
    have hpart := hinv.scanPart hgrows (by dsimp only; omega) (hfrom b (mem_of_getElem? hb))
      (by dsimp only; rw [hlen']; exact hsafe _ hzip) s
    dsimp only at hpart ⊢
    rwa [hlen'] at hpart

end ConsumerInv

/-! ### Taking back -/

theorem PqWalletOutput.rollback_eq_some {h : UInt32} {o o' : PqWalletOutput} (e : o.rollback h = some o') :
    ¬ Orphaned h o.height ∧ o'.height = o.height ∧ (o'.spent = true → o' = o) ∧
      (¬ (o.spent = true ∧ Orphaned h o.spentHeight) → o' = o) := by
  unfold rollback at e
  split at e
  · cases e
  · rename_i hkeep
    rw [some.injEq] at e
    subst e
    refine ⟨hkeep, ?_⟩
    split
    · rename_i hs
      exact ⟨rfl, (fun hf => by cases hf), fun hno => absurd hs hno⟩
    · exact ⟨rfl, fun _ => rfl, fun _ => rfl⟩

theorem PqWalletOutput.removeUnconfirmed_eq_some {txid : Hash} {o o' : PqWalletOutput}
    (e : o.removeUnconfirmed txid = some o') :
    o'.height = o.height ∧ (o'.spent = true → o' = o) ∧ (o' = o ∨ o.spentTxid = txid ∧ o.spent = true) := by
  unfold removeUnconfirmed at e
  split at e
  · cases e
  · rw [some.injEq] at e
    subst e
    split
    · rename_i hs
      exact ⟨rfl, (fun hf => by cases hf), .inr ⟨hs.2.2, hs.1⟩⟩
    · exact ⟨rfl, fun _ => rfl, .inl rfl⟩

/-- No confirmed record is new. -/
def NoneConfirmed (c c' : OutputTable) : Prop :=
  ∀ nf, ∀ o' ∈ c'.find nf, o'.height ≠ unconfirmedHeight → ∃ o ∈ c.find nf, o.height ≠ unconfirmedHeight

/-- Confirmed records stay. -/
def KeepsConfirmed (c c' : OutputTable) : Prop :=
  ∀ nf, ∀ o ∈ c.find nf, o.height ≠ unconfirmedHeight → ∃ o' ∈ c'.find nf, o'.height = o.height

variable {c : OutputTable}

theorem KeepsConfirmed.recorded {c' : OutputTable} (h : KeepsConfirmed c c') {nf : Hash} {m : Nat}
    (hr : Recorded c nf m) : Recorded c' nf m := by
  obtain ⟨o, ho, hne, hle⟩ := hr
  obtain ⟨o', ho', hh⟩ := h nf o ho hne
  exact ⟨o', ho', hh ▸ hne, hh ▸ hle⟩

theorem keepsConfirmed_removeUnconfirmed (L : Ledger) (D : Hash) :
    KeepsConfirmed L.outputs (L.removeUnconfirmedTransaction D).outputs := by
  intro nf o ho hne
  rw [mem_def] at ho
  have hkeep : ¬ (o.height = unconfirmedHeight ∧ o.txid = D) := fun hd => hne hd.1
  refine ⟨_, by rw [mem_def, L.find_removeUnconfirmed, ho, bind_some, PqWalletOutput.removeUnconfirmed,
    if_neg hkeep], ?_⟩
  split <;> rfl

theorem noneConfirmed_removeUnconfirmed (L : Ledger) (D : Hash) :
    NoneConfirmed L.outputs (L.removeUnconfirmedTransaction D).outputs := by
  intro nf o' ho' hne
  rw [mem_def, L.find_removeUnconfirmed] at ho'
  obtain ⟨o, ho, e⟩ := bind_eq_some_iff.mp ho'
  exact ⟨o, ho, (PqWalletOutput.removeUnconfirmed_eq_some e).1 ▸ hne⟩

/-- `D` leaves; no transaction of `P` spends a confirmed output that `D` spends. -/
theorem Facts.removeUnconfirmed {P : Finset Hash} {n : Nat} {L : Ledger} {D : Hash} (h : Facts W V P n L.outputs)
    (hno : ∀ A ∈ P, ∀ ta ∈ V.tx A, ∀ td ∈ V.tx D, ∀ nf ∈ spentNullifiers W ta, nf ∈ spentNullifiers W td →
      ∀ o ∈ L.outputs.find nf, o.height = unconfirmedHeight) :
    Facts W V P n (L.removeUnconfirmedTransaction D).outputs := by
  have hfind : ∀ {nf : Hash} {o' : PqWalletOutput}, (L.removeUnconfirmedTransaction D).outputs.find nf = some o' →
      ∃ o ∈ L.outputs.find nf, o.removeUnconfirmed D = some o' := by
    intro nf o' ho'
    rw [L.find_removeUnconfirmed] at ho'
    exact bind_eq_some_iff.mp ho'
  constructor
  · intro nf o' ho' hne
    obtain ⟨o, ho, e⟩ := hfind ho'
    have hheight := (PqWalletOutput.removeUnconfirmed_eq_some e).1
    rw [hheight] at hne ⊢
    exact h.heights nf o ho hne
  · intro nf o' ho' hs
    obtain ⟨o, ho, e⟩ := hfind ho'
    obtain rfl := (PqWalletOutput.removeUnconfirmed_eq_some e).2.1 hs
    exact h.marked nf o' ho hs
  · intro A hA ta hta nf hnf o' ho' hne
    obtain ⟨o, ho, e⟩ := hfind ho'
    obtain ⟨hheight, -, hsame⟩ := PqWalletOutput.removeUnconfirmed_eq_some e
    rw [hheight] at hne
    have hspent := h.reserved A hA ta hta nf hnf o ho hne
    rcases hsame with rfl | ⟨hby, -⟩
    · exact hspent
    · obtain ⟨td, htd, hnf'⟩ := h.marked nf o ho hspent
      rw [hby] at htd
      exact absurd (hno A hA ta hta td htd nf hnf hnf' o ho) hne

theorem ConsumerInv.detach (h : ConsumerInv W V K C) {height : Nat} (hlt : height < C.blocks.length)
    (hg : KeepsReserved W V C (.detach height)) : ConsumerInv W V K (C.onBlockchainDetach height) := by
  have hmax : unconfirmedHeight.toNat < 2 ^ 32 := by decide
  have hlen := h.length
  have hval : (UInt32.ofNat height).toNat = height := by
    rw [UInt32.toNat_ofNat']
    omega
  have htake : (C.blocks.take height).length = height := length_take_of_le hlt.le
  have hfind : ∀ {nf : Hash} {o' : PqWalletOutput},
      (C.ledger.rollbackToHeight (UInt32.ofNat height)).outputs.find nf = some o' →
      ∃ o ∈ C.ledger.outputs.find nf, o.rollback (UInt32.ofNat height) = some o' := by
    intro nf o' ho'
    rw [C.ledger.find_rollback] at ho'
    exact bind_eq_some_iff.mp ho'
  refine ⟨h.keys, htake.trans_le (by omega), ⟨?_, ?_, ?_⟩, ?_⟩
  · intro nf o' ho' hne
    obtain ⟨o, ho, e⟩ := hfind ho'
    obtain ⟨hkeep, hheight, -⟩ := PqWalletOutput.rollback_eq_some e
    rw [hheight] at hne ⊢
    have hbelow : ¬ UInt32.ofNat height ≤ o.height := fun hle => hkeep ⟨hle, hne⟩
    rw [UInt32.le_iff_toNat_le, hval] at hbelow
    show o.height.toNat ≤ (C.blocks.take height).length
    omega
  · intro nf o' ho' hs
    obtain ⟨o, ho, e⟩ := hfind ho'
    obtain rfl := (PqWalletOutput.rollback_eq_some e).2.2.1 hs
    exact h.facts.marked nf o' ho hs
  · intro A hA tx htx nf hnf o' ho' hne
    obtain ⟨o, ho, e⟩ := hfind ho'
    obtain ⟨hkeep, hheight, -, hsame⟩ := PqWalletOutput.rollback_eq_some e
    obtain rfl := hsame (hg A hA tx htx nf hnf o ho hkeep)
    exact h.facts.reserved A hA tx htx nf hnf o' ho hne
  · intro i b hb hsome x hx hv r hr
    have hb : (C.blocks.take height)[i]? = some b := hb
    have hi : i < height := by
      have := (List.getElem?_eq_some_iff.mp hb).1
      omega
    rw [getElem?_take, if_pos hi] at hb
    obtain ⟨o, ho, hne, hle⟩ := h.recorded i b hb hsome x hx hv r hr
    rw [mem_def] at ho
    have hkeep : ¬ Orphaned (UInt32.ofNat height) o.height := fun horph => by
      have := UInt32.le_iff_toNat_le.mp horph.1
      omega
    refine ⟨_, by
      show (C.ledger.rollbackToHeight (UInt32.ofNat height)).outputs.find _ = _
      rw [C.ledger.find_rollback, ho, bind_some, PqWalletOutput.rollback, if_neg hkeep], ?_⟩
    split
    · exact ⟨hne, hle⟩
    · exact ⟨hne, hle⟩

/-! ### Pool transactions -/

theorem noneConfirmed_spends (txid : Hash) (k : UInt32) (l : List Hash) (s : Scan) :
    NoneConfirmed s.outputs (l.foldl (Scan.spend txid k) s).outputs := by
  intro nf o' ho' hne
  rw [mem_def, Scan.find_spends] at ho'
  obtain ⟨o, ho, rfl⟩ := map_eq_some_iff.mp ho'
  refine ⟨o, ho, ?_⟩
  split at hne
  · rwa [o.height_spendBy] at hne
  · exact hne

/-- Receipts of a pool transaction confirm nothing. -/
theorem noneConfirmed_receives (txid : Hash) : ∀ (l : List Receipt) (s : Scan),
    NoneConfirmed s.outputs (l.foldl (Scan.receive W txid unconfirmedHeight) s).outputs
  | [], _ => fun _ o ho hne => ⟨o, ho, hne⟩
  | r :: l, s => by
    intro nf o' ho' hne
    obtain ⟨o, ho, hne⟩ := noneConfirmed_receives txid l _ nf o' ho' hne
    rw [mem_def, s.find_receive] at ho
    split at ho
    · rw [some.injEq] at ho
      subst ho
      cases hfind : s.outputs.find nf with
      | none =>
        rw [hfind] at hne
        exact absurd rfl hne
      | some o =>
        have hno : ¬ Promotes o.height unconfirmedHeight := fun hp => hp.2 rfl
        rw [hfind, Receipt.applyTo, if_neg hno] at hne
        exact ⟨o, rfl, hne⟩
    · exact ⟨o, ho, hne⟩

/-- After the loop over its inputs, what `txid` spends is marked. -/
theorem Facts.insert_spends {P : Finset Hash} {n : Nat} {k : UInt32} {txid : Hash} {s : Scan} {tx : TransactionPrefix}
    (h : Facts W V P n s.outputs) (htx : tx ∈ V.tx txid) :
    Facts W V (insert txid P) n ((spentNullifiers W tx).foldl (Scan.spend txid k) s).outputs := by
  have hfacts := (Facts.spends (k := k) htx (fun _ hnf => hnf) h).1
  refine ⟨hfacts.heights, hfacts.marked, fun A hA ta hta nf hnf o' ho' hne => ?_⟩
  rcases Finset.mem_insert.mp hA with rfl | hA
  · obtain rfl : tx = ta := some.inj (htx.symm.trans hta)
    rw [mem_def, Scan.find_spends] at ho'
    obtain ⟨o, -, rfl⟩ := map_eq_some_iff.mp ho'
    rw [if_pos hnf]
    exact o.spent_spendBy
  · exact hfacts.reserved A hA ta hta nf hnf o' ho' hne

theorem ConsumerInv.addUnconfirmedIfNew (h : ConsumerInv W V K C) (txid : Hash) :
    ConsumerInv W V K (C.addUnconfirmedIfNew W V txid) ∧
      NoneConfirmed C.ledger.outputs (C.addUnconfirmedIfNew W V txid).ledger.outputs := by
  have hsame : NoneConfirmed C.ledger.outputs C.ledger.outputs := fun _ o ho hne => ⟨o, ho, hne⟩
  unfold Consumer.addUnconfirmedIfNew
  split
  · exact ⟨h, hsame⟩
  · split
    · exact ⟨h, hsame⟩
    · rename_i tx htx
      have hkeys := C.ledger.keys_processTransaction (W := W) tx txid unconfirmedHeight 0
      unfold Ledger.processTransaction at hkeys ⊢
      split
      · exact ⟨h, hsame⟩
      · rename_i hv
        have hspends := h.facts.insert_spends (s := ⟨C.ledger.outputs, 0, 0, false⟩) (k := unconfirmedHeight) htx
        have hreceives : Facts W V (insert txid C.poolTxs) C.blocks.length
              (C.ledger.scanTransaction W tx txid unconfirmedHeight).outputs ∧
            Grows _ (C.ledger.scanTransaction W tx txid unconfirmedHeight).outputs :=
          Facts.receives (fun hk => absurd rfl hk) (fun _ _ hk => absurd rfl hk) hspends
        obtain ⟨hfacts, hgrows⟩ := hreceives
        have hgrows' := (Facts.spends (k := unconfirmedHeight) (s := ⟨C.ledger.outputs, 0, 0, false⟩) htx
          (fun _ hnf => hnf) h.facts).2.trans hgrows
        refine ⟨⟨h.keys, h.length, hfacts.subset ?_, fun i b hb hsome x hx hv r hr =>
          hgrows'.recorded (h.recorded i b hb hsome x hx hv r hr)⟩, ?_⟩
        · dsimp only
          split
          · exact Finset.Subset.refl _
          · exact Finset.subset_insert _ _
        · intro nf o' ho' hne
          obtain ⟨o, ho, hne⟩ := noneConfirmed_receives txid _ _ nf o' ho' hne
          exact noneConfirmed_spends txid _ _ _ nf o ho hne

theorem NoneConfirmed.trans {c' c'' : OutputTable} (h : NoneConfirmed c c') (h' : NoneConfirmed c' c'') :
    NoneConfirmed c c'' := by
  intro nf o ho hne
  obtain ⟨o', ho', hne'⟩ := h' nf o ho hne
  exact h nf o' ho' hne'

/-- The first loop of `onPoolUpdated`. -/
theorem ConsumerInv.adds : ∀ {l : List Hash} {C : Consumer}, ConsumerInv W V K C →
    ConsumerInv W V K (l.foldl (Consumer.addUnconfirmedIfNew W V) C) ∧
      NoneConfirmed C.ledger.outputs (l.foldl (Consumer.addUnconfirmedIfNew W V) C).ledger.outputs ∧
      ∀ A ∈ (l.foldl (Consumer.addUnconfirmedIfNew W V) C).poolTxs, A ∈ C.poolTxs ∨ A ∈ l
  | [], C, h => ⟨h, fun _ o ho hne => ⟨o, ho, hne⟩, fun A hA => .inl hA⟩
  | t :: l, C, h => by
    obtain ⟨hone, hnone⟩ := h.addUnconfirmedIfNew t
    obtain ⟨hrest, hnone', hpool⟩ := ConsumerInv.adds (l := l) hone
    refine ⟨hrest, hnone.trans hnone', fun A hA => ?_⟩
    have hinsert : ∀ A ∈ (C.addUnconfirmedIfNew W V t).poolTxs, A ∈ C.poolTxs ∨ A = t := by
      intro A hA
      unfold Consumer.addUnconfirmedIfNew at hA
      split at hA
      · exact .inl hA
      · split at hA
        · exact .inl hA
        · dsimp only at hA
          split at hA
          · exact (Finset.mem_insert.mp hA).symm
          · exact .inl hA
    rcases hpool A hA with hA | hA
    · rcases hinsert A hA with hA | rfl
      · exact .inl hA
      · exact .inr mem_cons_self
    · exact .inr (mem_cons_of_mem t hA)

/-- The second loop. `Q` are the transactions that stay. -/
theorem Facts.removes {Q : Finset Hash} {n : Nat} : ∀ {l : List Hash} {C : Consumer},
    Facts W V Q n C.ledger.outputs → NoneConfirmed c C.ledger.outputs →
    (∀ D ∈ l, ∀ A ∈ Q, ∀ ta ∈ V.tx A, ∀ td ∈ V.tx D, ∀ nf ∈ spentNullifiers W ta, nf ∈ spentNullifiers W td →
      c.find nf = none) → Facts W V Q n (l.foldl Consumer.removeUnconfirmedTransaction C).ledger.outputs ∧
      (∀ nf m, Recorded C.ledger.outputs nf m →
        Recorded (l.foldl Consumer.removeUnconfirmedTransaction C).ledger.outputs nf m) ∧
      (l.foldl Consumer.removeUnconfirmedTransaction C).ledger.keys = C.ledger.keys ∧
      (l.foldl Consumer.removeUnconfirmedTransaction C).blocks = C.blocks ∧
      ∀ A ∈ (l.foldl Consumer.removeUnconfirmedTransaction C).poolTxs, A ∈ C.poolTxs ∧ A ∉ l
  | [], C, h, _, _ => ⟨h, fun _ _ hr => hr, rfl, rfl, fun A hA => ⟨hA, by simp⟩⟩
  | D :: l, C, h, hc, hno => by
    have hone := h.removeUnconfirmed (D := D) fun A hA ta hta td htd nf hnf hnf' o ho => by
      by_contra hne
      obtain ⟨o', ho', -⟩ := hc nf o ho hne
      rw [hno D mem_cons_self A hA ta hta td htd nf hnf hnf'] at ho'
      cases ho'
    obtain ⟨hfacts, hrec, hkeys, hblocks, hpool⟩ := Facts.removes (l := l) (C := C.removeUnconfirmedTransaction D) hone
      (hc.trans (noneConfirmed_removeUnconfirmed C.ledger D)) (fun D' hD' => hno D' (mem_cons_of_mem D hD'))
    refine ⟨hfacts, fun nf m hr => hrec nf m ((keepsConfirmed_removeUnconfirmed C.ledger D).recorded hr), hkeys, hblocks,
      fun A hA => ?_⟩
    obtain ⟨hA, hl⟩ := hpool A hA
    have herase := Finset.mem_erase.mp hA
    refine ⟨herase.2, fun hmem => ?_⟩
    rcases mem_cons.mp hmem with rfl | hmem
    · exact herase.1 rfl
    · exact hl hmem

theorem ConsumerInv.poolUpdated (h : ConsumerInv W V K C) {added deleted : List Hash}
    (hg : KeepsReserved W V C (.poolUpdated added deleted)) :
    ConsumerInv W V K (C.onPoolUpdated W V added deleted) := by
  obtain ⟨hadds, hnone, hpool⟩ := h.adds (l := added)
  have hstay : ∀ A ∈ (added.foldl (Consumer.addUnconfirmedIfNew W V) C).poolTxs.filter (· ∉ deleted),
      A ∈ C.poolTxs ∪ added.toFinset ∧ A ∉ deleted := by
    intro A hA
    obtain ⟨hA, hd⟩ := Finset.mem_filter.mp hA
    exact ⟨Finset.mem_union.mpr ((hpool A hA).imp_right List.mem_toFinset.mpr), hd⟩
  obtain ⟨hfacts, hrec, hkeys, hblocks, hgone⟩ := Facts.removes (hadds.facts.subset (Finset.filter_subset _ _)) hnone
    fun D hD A hA => hg D hD A (hstay A hA).1 (hstay A hA).2
  unfold Consumer.onPoolUpdated
  refine ⟨hkeys.trans hadds.keys, hblocks ▸ hadds.length, ?_, fun i b hb hsome x hx hv r hr => ?_⟩
  · rw [hblocks]
    refine hfacts.subset fun A hA => ?_
    obtain ⟨hA, hd⟩ := hgone A hA
    exact Finset.mem_filter.mpr ⟨hA, hd⟩
  · rw [hblocks] at hb
    exact hrec _ _ (hadds.recorded i b hb hsome x hx hv r hr)

theorem ConsumerInv.removeUnconfirmed (h : ConsumerInv W V K C) {D : Hash}
    (hg : KeepsReserved W V C (.removeUnconfirmed D)) : ConsumerInv W V K (C.removeUnconfirmedTransaction D) := by
  have hfacts : Facts W V (C.poolTxs.erase D) C.blocks.length (C.ledger.removeUnconfirmedTransaction D).outputs := by
    refine (h.facts.subset (Finset.erase_subset _ _)).removeUnconfirmed fun A hA ta hta td htd nf hnf hnf' o ho => ?_
    obtain ⟨hne, hA⟩ := Finset.mem_erase.mp hA
    rw [hg A hA hne ta hta td htd nf hnf hnf'] at ho
    cases ho
  exact ⟨h.keys, h.length, hfacts, fun i b hb hsome x hx hv r hr =>
    (keepsConfirmed_removeUnconfirmed C.ledger D).recorded (h.recorded i b hb hsome x hx hv r hr)⟩

theorem ConsumerInv.step {C' : Consumer} {e : ConsumerEvent} (h : ConsumerInv W V K C) (hg : KeepsReserved W V C e)
    (hstep : C.step W V e = some C') : ConsumerInv W V K C' := by
  cases e with
  | newBlocks blocks stop =>
    rw [Consumer.step] at hstep
    split at hstep
    · rename_i hok
      obtain rfl := some.inj hstep
      exact h.newBlocks hok.1 hok.2 hg
    · cases hstep
  | detach height =>
    rw [Consumer.step] at hstep
    split at hstep
    · rename_i hlt
      obtain rfl := some.inj hstep
      exact h.detach hlt hg
    · cases hstep
  | poolUpdated added deleted =>
    rw [Consumer.step] at hstep
    split at hstep
    · obtain rfl := some.inj hstep
      exact h.poolUpdated hg
    · cases hstep
  | addUnconfirmed txid =>
    obtain rfl := some.inj hstep
    exact (h.addUnconfirmedIfNew txid).1
  | removeUnconfirmed txid =>
    obtain rfl := some.inj hstep
    exact h.removeUnconfirmed hg

theorem consumerInv_reachable (h : ((consumerMachine W V K).lts (KeepsReserved W V)).Reachable C) :
    ConsumerInv W V K C := by
  refine (Machine.inductive_of_step (fun {C} hC => ?_) ConsumerInv.step).reachable h
  obtain rfl := hC
  exact ⟨rfl, Nat.zero_le _, ⟨by simp [Ledger.fresh], by simp [Ledger.fresh], by simp⟩, by simp⟩

end

/-! ## Reserved outputs -/

section
variable (W : WalletPrimitives) (V : TxView) (C : Consumer)

def Consumer.InChain (A : Hash) : Prop := ∃ b ∈ C.blocks, ∃ x ∈ b.transactions, x.1 = A

/-- The nullifier of an output that the scanned chain pays to the wallet. -/
def Consumer.Owns (nf : Hash) : Prop :=
  ∃ b ∈ C.blocks.zipIdx, b.1.block.isSome = true ∧ ∃ x ∈ b.1.transactions, ¬ x.2.version < transactionVersion1 ∧
    ∃ r ∈ receipts W (C.ledger.scanningKeys W) x.2 (UInt32.ofNat b.2), r.nullifier W x.1 = nf

/-- The records that `spendableInputs` makes its entries of. -/
def Ledger.offered (L : Ledger) : List PqWalletOutput :=
  L.outputs.entries.filter (PqWalletOutput.spendable L.lastScannedHeight)

/-- Recorded, spent and not offered. -/
def Consumer.Reserved (nf : Hash) : Prop := ∃ o ∈ C.ledger.outputs.find nf, o.spent = true ∧ o ∉ C.ledger.offered

/-- What a pending transaction spends of the scanned chain is reserved. -/
def Consumer.AllReserved : Prop :=
  ∀ A ∈ C.poolTxs, ¬ C.InChain A → ∀ tx ∈ V.tx A, ∀ nf ∈ spentNullifiers W tx, C.Owns W nf → C.Reserved nf

instance (A : Hash) : Decidable (C.InChain A) := inferInstanceAs (Decidable (∃ _ ∈ _, _))

instance (nf : Hash) : Decidable (C.Owns W nf) := inferInstanceAs (Decidable (∃ _ ∈ _, _))

instance (nf : Hash) : Decidable (C.Reserved nf) := inferInstanceAs (Decidable (∃ _ ∈ _, _))

instance : Decidable (C.AllReserved W V) := inferInstanceAs (Decidable (∀ _ ∈ _, _))

end

/-- In every run that meets `KeepsReserved`, at every point, what a pending transaction
spends of the scanned chain is marked spent and not offered. -/
theorem reserved_reachable {W : WalletPrimitives} {V : TxView} {K : LedgerKeys} {C : Consumer}
    (h : ((consumerMachine W V K).lts (KeepsReserved W V)).Reachable C) : C.AllReserved W V := by
  have hinv := consumerInv_reachable h
  intro A hA _ tx htx nf hnf howns
  obtain ⟨b, hb, hbody, x, hx, hv, r, hr, rfl⟩ := howns
  have hget : C.blocks[b.2]? = some b.1 := by
    rw [mem_zipIdx_iff_getElem?] at hb
    exact hb
  have hscan : C.ledger.scanningKeys W = K.ensureDepositKeys W K.depositCount := by rw [Ledger.scanningKeys, hinv.keys]
  obtain ⟨o, ho, hne, -⟩ := hinv.recorded b.2 b.1 hget hbody x hx hv r (hscan ▸ hr)
  have hspent := hinv.facts.reserved A hA tx htx _ hnf o ho hne
  refine ⟨o, ho, hspent, fun hoff => ?_⟩
  have := (mem_filter.mp hoff).2
  simp [PqWalletOutput.spendable, hspent] at this

/-! ## A reorganisation under a pending spend -/

/-- An output to the primary address, as a sender builds it. -/
def toyOutputTo (tx : TransactionPrefix) (amount : UInt64) (coins : OutputCoins) : TransactionOutput :=
  let sealed := toyWallet.kemEncaps toyKeys.viewPub coins.encaps
  let out := sealPqOutput toyWallet sealed.1 sealed.2 toyKeys.spendPub (pqTransactionInputsHash toyWallet tx) 0 amount
    coins.rho 0
  ⟨amount, 0, .pq ⟨out.kemCt.val, out.encPayload, out.spendCommit⟩⟩

/-- A transfer that spends the output 0 of `prevTxid` and pays the wallet `amount`. -/
def toyTransfer (prevTxid : Hash) (spendPub : DsaPublicKey) (coins : OutputCoins) (amount : UInt64)
    (change : OutputCoins) : TransactionPrefix :=
  let tx : TransactionPrefix :=
    ⟨transactionVersion1, txPq, 0, [.pq ⟨prevTxid, 0, spendPub.val, coins.rho.val, pqNoKeyRef⟩], [], []⟩
  { tx with outputs := [toyOutputTo tx amount change] }

/-- `toyHashOf 20` is paid by a stranger; `toyHashOf 21` spends it and has change. -/
def toyPoolView : TxView where
  tx txid :=
    if txid = toyHashOf 20 then some (toyTransfer nullHash toyDepositKey (toyCoins 0 0) 50 (toyCoins 0 1))
    else if txid = toyHashOf 21 then
      some (toyTransfer (toyHashOf 20) toyKeys.spendPub (toyCoins 0 1) 30 (toyCoins 0 2))
    else none
  outputs_lt := by
    intro txid t ht
    split at ht
    · rw [← some.inj ht]
      show 1 < 2 ^ 32
      decide
    · split at ht
      · rw [← some.inj ht]
        show 1 < 2 ^ 32
        decide
      · cases ht

/-- A block with the payment. -/
def toyPaidBlock (blockHash : Hash) : CompleteBlock where
  blockHash := blockHash
  block := some 60
  transactions := [(toyHashOf 20, toyTransfer nullHash toyDepositKey (toyCoins 0 0) 50 (toyCoins 0 1))]

theorem consumerMachine_init (V : TxView) (G : Consumer → ConsumerEvent → Prop) :
    ((consumerMachine toyWallet V toyLedger.keys).lts G).Reachable ⟨Ledger.fresh toyLedger.keys, ∅, []⟩ :=
  .init rfl

/-- A payment, its pending spend and a further block. -/
theorem reserved_reachable_pending :
    ∃ C, ((consumerMachine toyWallet toyPoolView toyLedger.keys).lts (KeepsReserved toyWallet toyPoolView)).Reachable C ∧
      toyHashOf 21 ∈ C.poolTxs ∧ C.blocks.length = 3 ∧ C.AllReserved toyWallet toyPoolView := by
  obtain ⟨C, hreach, hpool, hlen⟩ := Machine.exists_run (P := fun C => toyHashOf 21 ∈ C.poolTxs ∧ C.blocks.length = 3)
    (consumerMachine_init toyPoolView (KeepsReserved toyWallet toyPoolView))
    [.newBlocks [toyGenesis, toyPaidBlock (toyHashOf 2)] none, .addUnconfirmed (toyHashOf 21),
      .newBlocks [toyOtherBlock] none] (by decide +kernel)
  exact ⟨C, hreach, hpool, hlen, reserved_reachable hreach⟩

/-- The block with the payment is detached and the payment is mined again on the new
branch, while its spend is pending all the time: the output is offered again. -/
theorem reconfirmed_output_offered :
    ∃ C, ((consumerMachine toyWallet toyPoolView toyLedger.keys).lts Machine.anyEvent).Reachable C ∧
      C.ledger.spendableInputs.length = 1 ∧ ¬ C.AllReserved toyWallet toyPoolView := by
  exact Machine.exists_run (consumerMachine_init _ _)
    [.newBlocks [toyGenesis, toyPaidBlock (toyHashOf 2)] none, .addUnconfirmed (toyHashOf 21), .detach 1,
      .newBlocks [toyPaidBlock (toyHashOf 4)] none] (by decide +kernel)

end Discrete.L6
