import Mathlib.Algebra.BigOperators.Group.Finset.Basic
import Discrete.L6Wallet.Ledger

/-!
# What a transaction is worth to the wallet

A transaction pays the wallet its `receipts` and spends those outputs of the wallet
whose nullifiers it reveals. Both are facts about the transaction: which of them a
scan finds recorded depends on what was scanned before.

Under `CollisionFree` a nullifier belongs to one output (`Recognised.unique`), so an
amount can be read off it (`ownedAmount`), and a transaction has sums (`debits`,
`credits`) that a scan computes exactly when it finds every output the transaction
spends, unspent, and none that it creates.

`Scan.debited_spends`, `Scan.credited_receives` and `Scan.find_receives` say what the
two loops of `processTransaction` compute.
-/
namespace Discrete.L6
open List L1 L2 L3

/-! ## The loops -/

section
variable {W : WalletPrimitives} {txid : Hash} {k : UInt32}

theorem PqWalletOutput.debit_spendBy (o : PqWalletOutput) : (o.spendBy txid k).debit txid k = 0 := by
  have hno : ¬ Promotes k k := fun h => h.2 h.1
  by_cases hs : o.spent
  · by_cases hp : Promotes o.spentHeight k <;> simp [spendBy, debit, hs, hp, hno]
  · simp [spendBy, debit, hs, hno]

/-- What a spend of the record under `nf` adds to `debited`. -/
def Scan.debitAt (txid : Hash) (k : UInt32) (s : Scan) (nf : Hash) : UInt64 :=
  ((s.outputs.find nf).map (PqWalletOutput.debit txid k)).getD 0

theorem Scan.debited_spend (s : Scan) (nf : Hash) : (s.spend txid k nf).debited = s.debited + s.debitAt txid k nf := by
  unfold Scan.spend Scan.debitAt
  split
  · rename_i h
    simp [h]
  · rename_i o h
    simp [h]

theorem Scan.debitAt_spend (s : Scan) (nf nf' : Hash) :
    (s.spend txid k nf).debitAt txid k nf' = if nf' = nf then 0 else s.debitAt txid k nf' := by
  rw [Scan.debitAt, Scan.find_spend, Option.map_map]
  split
  · cases s.outputs.find nf' with
    | none => rfl
    | some o => simp [PqWalletOutput.debit_spendBy]
  · rfl

/-- Each output is counted once, however often its nullifier is revealed. -/
theorem Scan.debited_spends : ∀ (l : List Hash) (s : Scan),
    (l.foldl (Scan.spend txid k) s).debited = s.debited + ∑ nf ∈ l.toFinset, s.debitAt txid k nf
  | [], s => by simp
  | nf :: l, s => by
    have hrest : ∑ x ∈ l.toFinset, (s.spend txid k nf).debitAt txid k x =
        ∑ x ∈ l.toFinset.erase nf, s.debitAt txid k x := by
      rw [← Finset.sum_erase l.toFinset (show (s.spend txid k nf).debitAt txid k nf = 0 by simp [debitAt_spend])]
      refine Finset.sum_congr rfl fun x hx => ?_
      rw [debitAt_spend, if_neg (Finset.ne_of_mem_erase hx)]
    have hinsert : (nf :: l).toFinset = insert nf (l.toFinset.erase nf) := by
      ext x
      by_cases hx : x = nf <;> simp [hx]
    rw [foldl_cons, Scan.debited_spends l, Scan.debited_spend, hrest, hinsert,
      Finset.sum_insert (Finset.notMem_erase nf _), add_assoc]

theorem Scan.credited_receive (s : Scan) (r : Receipt) :
    (s.receive W txid k r).credited =
      s.credited + if s.outputs.find (r.nullifier W txid) = none then r.amount else 0 := by
  unfold Scan.receive
  split
  · rename_i o h
    rw [h]
    split <;> simp
  · rename_i h
    simp [h]

theorem Scan.debited_receives (l : List Receipt) (s : Scan) :
    (l.foldl (Scan.receive W txid k) s).debited = s.debited := by
  refine foldlRecOn (motive := fun t : Scan => t.debited = s.debited) l _ rfl fun t ht r _ => ?_
  unfold Scan.receive
  split
  · split <;> exact ht
  · exact ht

theorem Scan.credited_spends (l : List Hash) (s : Scan) : (l.foldl (Scan.spend txid k) s).credited = s.credited := by
  refine foldlRecOn (motive := fun t : Scan => t.credited = s.credited) l _ rfl fun t ht nf _ => ?_
  unfold Scan.spend
  split <;> exact ht

/-- The receipts of one transaction have different nullifiers. -/
theorem Scan.credited_receives : ∀ {l : List Receipt} {s : Scan}, (l.map fun r => r.nullifier W txid).Nodup →
    (l.foldl (Scan.receive W txid k) s).credited =
      s.credited + (l.map fun r => if s.outputs.find (r.nullifier W txid) = none then r.amount else 0).sum
  | [], s, _ => by simp
  | r :: l, s, hnd => by
    rw [map_cons, nodup_cons] at hnd
    have hsame : (l.map fun r' => if (s.receive W txid k r).outputs.find (r'.nullifier W txid) = none then r'.amount
        else 0) = l.map fun r' => if s.outputs.find (r'.nullifier W txid) = none then r'.amount else 0 := by
      refine map_congr_left fun r' hr' => ?_
      have hne : r'.nullifier W txid ≠ r.nullifier W txid := fun e =>
        hnd.1 (e ▸ List.mem_map_of_mem (f := fun r : Receipt => r.nullifier W txid) hr')
      rw [Scan.find_receive, if_neg hne]
    rw [foldl_cons, Scan.credited_receives hnd.2, hsame, Scan.credited_receive, map_cons, sum_cons, add_assoc]

theorem Scan.find_receives_of_not {nf : Hash} {l : List Receipt} {s : Scan} (h : ∀ r ∈ l, r.nullifier W txid ≠ nf) :
    (l.foldl (Scan.receive W txid k) s).outputs.find nf = s.outputs.find nf :=
  foldlRecOn (motive := fun t : Scan => t.outputs.find nf = s.outputs.find nf) l _ rfl fun t ht r hr => by
    rw [Scan.find_receive, if_neg (Ne.symm (h r hr)), ht]

theorem Scan.find_receives : ∀ {l : List Receipt} {s : Scan}, (l.map fun r => r.nullifier W txid).Nodup →
    ∀ r ∈ l, (l.foldl (Scan.receive W txid k) s).outputs.find (r.nullifier W txid) =
      some (r.applyTo W txid k (s.outputs.find (r.nullifier W txid)))
  | [], _, _, r, hr => by cases hr
  | r' :: l, s, hnd, r, hr => by
    rw [map_cons, nodup_cons] at hnd
    rw [foldl_cons]
    rcases mem_cons.mp hr with rfl | hr
    · rw [Scan.find_receives_of_not, Scan.find_receive, if_pos rfl]
      exact fun r' hr' e => hnd.1 (e ▸ List.mem_map_of_mem (f := fun r : Receipt => r.nullifier W txid) hr')
    · have hne : r.nullifier W txid ≠ r'.nullifier W txid := fun e =>
        hnd.1 (e ▸ List.mem_map_of_mem (f := fun r : Receipt => r.nullifier W txid) hr)
      rw [Scan.find_receives hnd.2 r hr, Scan.find_receive, if_neg hne]

end

/-! ## Receipts and their outputs -/

section
variable {W : WalletPrimitives} {K : LedgerKeys} {tx : TransactionPrefix} {k : UInt32} {r : Receipt}

/-- The output a receipt is for: recognised by one loop or by the other. -/
inductive Receipt.At (W : WalletPrimitives) (K : LedgerKeys) (tx : TransactionPrefix) (k : UInt32)
    (x : TransactionOutput × UInt32) (r : Receipt) : Prop where
  | pq : recognizePq W K (pqTransactionInputsHash W tx) (scanModeOf tx) x.2 x.1 = some r → At W K tx k x r
  | coinbase : tx.txType = txCoinbase → recognizeCoinbase W K k x.2 x.1 = some r → At W K tx k x r

theorem mem_receipts : r ∈ receipts W K tx k ↔ ∃ x ∈ indexedOutputs tx, r.At W K tx k x := by
  unfold receipts
  rw [mem_append]
  constructor
  · intro h
    rcases h with h | h
    · obtain ⟨x, hx, h⟩ := mem_filterMap.mp h
      exact ⟨x, hx, .pq h⟩
    · split at h
      · rename_i htx
        obtain ⟨x, hx, h⟩ := mem_filterMap.mp h
        exact ⟨x, hx, .coinbase htx h⟩
      · cases h
  · intro ⟨x, hx, h⟩
    cases h with
    | pq h => exact .inl (mem_filterMap.mpr ⟨x, hx, h⟩)
    | coinbase htx h =>
      rw [if_pos htx]
      exact .inr (mem_filterMap.mpr ⟨x, hx, h⟩)

theorem recognizeCoinbase_eq_some {i : UInt32} {out : TransactionOutput} (h : recognizeCoinbase W K k i out = some r) :
    (∃ co, out.target = .coinbase co) ∧
      r = ⟨i, out.amount, coinbaseRho W.toPrimitives r.owner k i, out.unlockHeight, r.owner, pqPrimaryDeposit⟩ := by
  unfold recognizeCoinbase at h
  split at h
  · rename_i co hco
    obtain ⟨owner, -, rfl⟩ := Option.map_eq_some_iff.mp h
    exact ⟨⟨co, hco⟩, rfl⟩
  · cases h

theorem recognizePq_target {ih : Hash} {mode : PqScanMode} {i : UInt32} {out : TransactionOutput}
    (h : recognizePq W K ih mode i out = some r) : ∃ po, out.target = .pq po := by
  obtain ⟨so, hso, -⟩ := Option.bind_eq_some_iff.mp h
  unfold scanOutput at hso
  split at hso
  · rename_i po hpo
    exact ⟨po, hpo⟩
  · cases hso

theorem Receipt.At.index {x : TransactionOutput × UInt32} (h : r.At W K tx k x) : r.outputIndex = x.2 := by
  cases h with
  | pq h => exact (recognizePq_of h).index
  | coinbase _ h => rw [(recognizeCoinbase_eq_some h).2]

/-- Two receipts for one output with the same owner and opening are the same. -/
theorem Receipt.At.ext {k' : UInt32} {r' : Receipt} {x : TransactionOutput × UInt32} (h : r.At W K tx k x)
    (h' : r'.At W K tx k' x) (howner : r.owner = r'.owner) (hrho : r.rho = r'.rho) : r = r' := by
  cases h with
  | pq h =>
    cases h' with
    | pq h' => exact Option.some.inj (h.symm.trans h')
    | coinbase _ h' =>
      obtain ⟨po, hpo⟩ := recognizePq_target h
      obtain ⟨⟨co, hco⟩, -⟩ := recognizeCoinbase_eq_some h'
      rw [hpo] at hco
      cases hco
  | coinbase _ h =>
    cases h' with
    | pq h' =>
      obtain ⟨po, hpo⟩ := recognizePq_target h'
      obtain ⟨⟨co, hco⟩, -⟩ := recognizeCoinbase_eq_some h
      rw [hpo] at hco
      cases hco
    | coinbase _ h' =>
      have e := (recognizeCoinbase_eq_some h).2
      have e' := (recognizeCoinbase_eq_some h').2
      have hr : r.rho = coinbaseRho W.toPrimitives r.owner k x.2 := by rw [e]
      have hr' : r'.rho = coinbaseRho W.toPrimitives r'.owner k' x.2 := by rw [e']
      rw [e, e', ← hr, ← hr', howner, hrho]

/-- Only a coinbase is recognised by the height it is seen at. -/
theorem receipts_of_not_coinbase (htx : tx.txType ≠ txCoinbase) (k k' : UInt32) :
    receipts W K tx k = receipts W K tx k' := by
  rw [receipts, receipts, if_neg htx, if_neg htx]

theorem indexedOutputs_nodup (hlen : tx.outputs.length < 2 ^ 32) : ((indexedOutputs tx).map Prod.snd).Nodup := by
  have hmap : (indexedOutputs tx).map Prod.snd = (List.range tx.outputs.length).map UInt32.ofNat := by
    rw [indexedOutputs, List.map_map]
    have := congrArg (List.map UInt32.ofNat) (zipIdx_map_snd 0 tx.outputs)
    rw [List.map_map, ← range_eq_range'] at this
    exact this
  rw [hmap]
  refine List.Nodup.map_on (fun i hi j hj e => ?_) nodup_range
  have hi := mem_range.mp hi
  have hj := mem_range.mp hj
  have := congrArg UInt32.toNat e
  rw [UInt32.toNat_ofNat', UInt32.toNat_ofNat'] at this
  omega

theorem indexedOutputs_inj (hlen : tx.outputs.length < 2 ^ 32) {x y : TransactionOutput × UInt32}
    (hx : x ∈ indexedOutputs tx) (hy : y ∈ indexedOutputs tx) (e : x.2 = y.2) : x = y :=
  inj_on_of_nodup_map (indexedOutputs_nodup hlen) hx hy e

/-- A loop finds at most one receipt for each output. -/
theorem filterMap_index_nodup {f : TransactionOutput × UInt32 → Option Receipt}
    (hf : ∀ x r, f x = some r → r.outputIndex = x.2) : ∀ {l : List (TransactionOutput × UInt32)},
    (l.map Prod.snd).Nodup → ((l.filterMap f).map Receipt.outputIndex).Nodup
  | [], _ => by simp
  | x :: l, h => by
    rw [map_cons, nodup_cons] at h
    have ih := filterMap_index_nodup hf h.2
    cases hx : f x with
    | none => rwa [filterMap_cons_none hx]
    | some r =>
      rw [filterMap_cons_some hx, map_cons, nodup_cons]
      refine ⟨fun hmem => ?_, ih⟩
      obtain ⟨r', hr', e⟩ := List.mem_map.mp hmem
      obtain ⟨y, hy, hfy⟩ := mem_filterMap.mp hr'
      refine h.1 (List.mem_map.mpr ⟨y, hy, ?_⟩)
      rw [← hf y r' hfy, e, hf x r hx]

theorem receipts_index_nodup (hlen : tx.outputs.length < 2 ^ 32) :
    ((receipts W K tx k).map Receipt.outputIndex).Nodup := by
  have hpq : ((((indexedOutputs tx).filterMap fun x =>
      recognizePq W K (pqTransactionInputsHash W tx) (scanModeOf tx) x.2 x.1)).map Receipt.outputIndex).Nodup :=
    filterMap_index_nodup (fun x r h => (recognizePq_of h).index) (indexedOutputs_nodup hlen)
  unfold receipts
  dsimp only
  split
  · have hcb : (((indexedOutputs tx).filterMap fun x => recognizeCoinbase W K k x.2 x.1).map
        Receipt.outputIndex).Nodup :=
      filterMap_index_nodup (fun x r h => by rw [(recognizeCoinbase_eq_some h).2]) (indexedOutputs_nodup hlen)
    rw [map_append, nodup_append]
    refine ⟨hpq, hcb, fun i hi j hj e => ?_⟩
    obtain ⟨r, hr, rfl⟩ := List.mem_map.mp hi
    obtain ⟨r', hr', rfl⟩ := List.mem_map.mp hj
    obtain ⟨x, hx, hfx⟩ := mem_filterMap.mp hr
    obtain ⟨y, hy, hfy⟩ := mem_filterMap.mp hr'
    -- one output cannot be recognised by both loops
    have hxy : x = y := by
      refine indexedOutputs_inj hlen hx hy ?_
      rw [← (recognizePq_of hfx).index, e, (recognizeCoinbase_eq_some hfy).2]
    subst hxy
    obtain ⟨po, hpo⟩ := recognizePq_target hfx
    obtain ⟨⟨co, hco⟩, -⟩ := recognizeCoinbase_eq_some hfy
    rw [hpo] at hco
    cases hco
  · rw [append_nil]
    exact hpq

end

/-! ## Nullifiers name outputs -/

section
variable (W : WalletPrimitives) (V : TxView) (K : LedgerKeys)

def ownReceipts (tx : TransactionPrefix) (k : UInt32) : List Receipt :=
  receipts W (K.ensureDepositKeys W K.depositCount) tx k

/-- The transaction `txid` pays the wallet `r`, at some height. -/
def Recognised (txid : Hash) (r : Receipt) : Prop := ∃ tx ∈ V.tx txid, ∃ k, r ∈ ownReceipts W K tx k

/-- The nullifier of an output that some transaction pays to the wallet. -/
def OwnedNullifier (nf : Hash) : Prop := ∃ txid r, Recognised W V K txid r ∧ r.nullifier W txid = nf

/-- No collision among the nullifiers of the wallet's outputs. -/
def CollisionFree : Prop :=
  Set.InjOn W.sha3_256
    { b | ∃ txid r, Recognised W V K txid r ∧ b = nullifierPreimage r.owner r.rho txid r.outputIndex }

open Classical in
/-- The amount of the output with this nullifier; zero when it is not the wallet's. -/
noncomputable def ownedAmount (nf : Hash) : UInt64 :=
  if h : OwnedNullifier W V K nf then h.choose_spec.choose.amount else 0

/-- The sum of what a transaction spends of the wallet. -/
noncomputable def debits (tx : TransactionPrefix) : UInt64 :=
  ∑ nf ∈ (spentNullifiers W tx).toFinset, ownedAmount W V K nf

/-- The sum of what it pays. -/
def credits (tx : TransactionPrefix) (k : UInt32) : UInt64 := ((ownReceipts W K tx k).map Receipt.amount).sum

end

section
variable {W : WalletPrimitives} {V : TxView} {K : LedgerKeys}

theorem Recognised.unique (hcf : CollisionFree W V K) {txid txid' : Hash} {r r' : Receipt} (h : Recognised W V K txid r)
    (h' : Recognised W V K txid' r') (e : r.nullifier W txid = r'.nullifier W txid') : txid = txid' ∧ r = r' := by
  have hpre := hcf ⟨txid, r, h, rfl⟩ ⟨txid', r', h', rfl⟩ e
  obtain ⟨howner, hrho, rfl, hindex⟩ := nullifierPreimage_inj hpre
  refine ⟨rfl, ?_⟩
  obtain ⟨tx, htx, k, hr⟩ := h
  obtain ⟨tx', htx', k', hr'⟩ := h'
  obtain rfl : tx = tx' := Option.some.inj (htx.symm.trans htx')
  obtain ⟨x, hx, hat⟩ := mem_receipts.mp hr
  obtain ⟨x', hx', hat'⟩ := mem_receipts.mp hr'
  obtain rfl : x = x' := by
    refine indexedOutputs_inj (V.outputs_lt htx) hx hx' ?_
    rw [← hat.index, ← hat'.index, hindex]
  exact hat.ext hat' howner hrho

theorem ownReceipts_nodup (hcf : CollisionFree W V K) {txid : Hash} {tx : TransactionPrefix} (htx : V.tx txid = some tx)
    (k : UInt32) : ((ownReceipts W K tx k).map fun r => r.nullifier W txid).Nodup := by
  have hnd : (ownReceipts W K tx k).Nodup := (receipts_index_nodup (V.outputs_lt htx)).of_map _
  refine List.Nodup.map_on (fun r hr r' hr' e => ?_) hnd
  exact (Recognised.unique hcf ⟨tx, htx, k, hr⟩ ⟨tx, htx, k, hr'⟩ e).2

theorem ownedAmount_eq (hcf : CollisionFree W V K) {txid : Hash} {r : Receipt} (h : Recognised W V K txid r) :
    ownedAmount W V K (r.nullifier W txid) = r.amount := by
  have howned : OwnedNullifier W V K (r.nullifier W txid) := ⟨txid, r, h, rfl⟩
  rw [ownedAmount, dif_pos howned]
  obtain ⟨hrec, e⟩ := howned.choose_spec.choose_spec
  rw [(hrec.unique hcf h e).2]

theorem ownedAmount_of_not {nf : Hash} (h : ¬ OwnedNullifier W V K nf) : ownedAmount W V K nf = 0 := by
  rw [ownedAmount, dif_neg h]

end

/-! ## Processing a transaction

What `processTransaction` does to each record and each row. -/

section
variable {W : WalletPrimitives} {V : TxView} {K : LedgerKeys} {L : Ledger} {tx : TransactionPrefix} {txid : Hash}
  {k : UInt32} {timestamp : UInt64}

/-- The first loop on the record under `nf`. -/
def PqWalletOutput.spentBy (W : WalletPrimitives) (tx : TransactionPrefix) (txid : Hash) (k : UInt32) (nf : Hash)
    (o : PqWalletOutput) : PqWalletOutput :=
  if nf ∈ spentNullifiers W tx then o.spendBy txid k else o

/-- The sum of the first loop. -/
def debitedBy (W : WalletPrimitives) (L : Ledger) (tx : TransactionPrefix) (txid : Hash) (k : UInt32) : UInt64 :=
  ∑ nf ∈ (spentNullifiers W tx).toFinset, ((L.outputs.find nf).map (PqWalletOutput.debit txid k)).getD 0

/-- The sum of the second. -/
def creditedBy (W : WalletPrimitives) (K : LedgerKeys) (L : Ledger) (tx : TransactionPrefix) (txid : Hash)
    (k : UInt32) : UInt64 :=
  ((ownReceipts W K tx k).map fun r => if L.outputs.find (r.nullifier W txid) = none then r.amount else 0).sum

theorem scanTransaction_eq (hkeys : L.keys = K) :
    L.scanTransaction W tx txid k = (ownReceipts W K tx k).foldl (Scan.receive W txid k)
      ((spentNullifiers W tx).foldl (Scan.spend txid k) ⟨L.outputs, 0, 0, false⟩) := by
  rw [Ledger.scanTransaction, Ledger.scanningKeys, hkeys, ownReceipts]

section
variable (hcf : CollisionFree W V K) (htx : V.tx txid = some tx) (hv : ¬ tx.version < transactionVersion1)
  (hkeys : L.keys = K)
include hcf htx hv hkeys

theorem find_process_receipt {r : Receipt} (hr : r ∈ ownReceipts W K tx k) :
    (L.processTransaction W tx txid k timestamp).1.outputs.find (r.nullifier W txid) = some (r.applyTo W txid k
        ((L.outputs.find (r.nullifier W txid)).map (PqWalletOutput.spentBy W tx txid k (r.nullifier W txid)))) := by
  rw [Ledger.processTransaction, if_neg hv]
  dsimp only
  rw [scanTransaction_eq hkeys, Scan.find_receives (ownReceipts_nodup hcf htx k) r hr, Scan.find_spends]
  rfl

omit hcf htx in
theorem find_process_other {nf : Hash} (hnf : ∀ r ∈ ownReceipts W K tx k, r.nullifier W txid ≠ nf) :
    (L.processTransaction W tx txid k timestamp).1.outputs.find nf =
      (L.outputs.find nf).map (PqWalletOutput.spentBy W tx txid k nf) := by
  rw [Ledger.processTransaction, if_neg hv]
  dsimp only
  rw [scanTransaction_eq hkeys, Scan.find_receives_of_not hnf, Scan.find_spends]
  rfl

theorem history_process :
    (L.processTransaction W tx txid k timestamp).1.history =
      (updateHistory L.history tx txid k timestamp (debitedBy W L tx txid k) (creditedBy W K L tx txid k)).1 := by
  have hdebit : (L.scanTransaction W tx txid k).debited = debitedBy W L tx txid k := by
    rw [Ledger.scanTransaction, Scan.debited_receives, Scan.debited_spends]
    exact zero_add _
  have hcredit : (L.scanTransaction W tx txid k).credited = creditedBy W K L tx txid k := by
    rw [scanTransaction_eq hkeys, Scan.credited_receives (ownReceipts_nodup hcf htx k), Scan.credited_spends]
    have hfind : ∀ r : Receipt, (((spentNullifiers W tx).foldl (Scan.spend txid k)
        ⟨L.outputs, 0, 0, false⟩).outputs.find (r.nullifier W txid) = none) ↔
          L.outputs.find (r.nullifier W txid) = none := by
      intro r
      rw [Scan.find_spends, Option.map_eq_none_iff]
    simp only [hfind]
    exact zero_add _
  rw [Ledger.processTransaction, if_neg hv]
  dsimp only
  rw [hdebit, hcredit]

end

/-- The row of the transaction after an update. -/
def rowAfter (tx : TransactionPrefix) (txid : Hash) (k : UInt32) (timestamp debited credited : UInt64) :
    Option PqWalletTransaction → Option PqWalletTransaction
  | some t => some (if Promotes t.height k then { t with height := k, timestamp := timestamp } else t)
  | none => if debited > 0 ∨ credited > 0 then some (newRow tx txid k timestamp debited credited) else none

theorem find_updateHistory (c : HistoryTable) (debited credited : UInt64) (t : Hash) :
    (updateHistory c tx txid k timestamp debited credited).1.find t =
      if t = txid then rowAfter tx txid k timestamp debited credited (c.find t) else c.find t := by
  unfold updateHistory
  split
  · rename_i h hh
    split
    · rename_i hp
      rw [MultiIndex.find_modify]
      split
      · rename_i e
        rw [e, hh]
        simp [rowAfter, hp]
      · simp
    · rename_i hp
      split
      · rename_i e
        rw [e, hh]
        simp [rowAfter, hp]
      · rfl
  · rename_i hnone
    split
    · rename_i hpos
      have hpush := MultiIndex.find_push (a := newRow tx txid k timestamp debited credited) hnone t
      split
      · rename_i e
        rw [hpush, e, hnone, rowAfter, if_pos hpos]
        exact if_pos rfl
      · rename_i e
        rw [hpush]
        exact if_neg e
    · rename_i hpos
      split
      · rename_i e
        rw [e, hnone, rowAfter, if_neg hpos]
      · rfl

end
end Discrete.L6
