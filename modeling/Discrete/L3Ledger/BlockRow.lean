import Discrete.L3Ledger.Chain

/-!
# What further transactions leave valid

Transactions are checked one after the other against tables that already hold those
before them in the block. `Keeps` says what later tables keep of earlier ones, `Ahead`
how the tables within a block differ from the chain's.

* `Ahead.checks`: a transaction that passes on the chain passes inside the block, if it
  shares no spend tag and no account with the transactions before it.
* `pushRow`: so a row of such transactions goes through, with the fees they pay on the
  chain.
* `Pushed.transfer`: a transfer that passes on the chain passes after another block, if
  the block holds nothing that it conflicts with.
-/
namespace Discrete.L3
open List Option L1 L2

/-- `db'` has what `db` indexes, and nothing is spent and no account registered in it that
is not in `db`, but `images` and `accounts`. -/
structure Keeps (db db' : Db) (images accounts : List Hash) : Prop where
  spent : ∀ k, db.spentKeys k = none → k ∉ images → db'.spentKeys k = none
  registered : ∀ a, db.pqAcctReg a = none → a ∉ accounts → db'.pqAcctReg a = none
  indexed : ∀ id pos, db.txIndex id = some pos → db'.txIndex id = some pos
  entries : ∀ h slot, h < db.getChainHeight → db'.txEntries (h, slot) = db.txEntries (h, slot)

section Keeps
variable {E : Env} {db db' : Db} {images accounts : List Hash}

variable {inp : PqInput}

variable (h : Keeps db db' images accounts) (hwf : db.Wf)
  (hlock : ∀ u, db.isTxSpendheightUnlocked u = true → db'.isTxSpendheightUnlocked u = true)
include h hwf

/-- What is referred to on the chain stays. -/
theorem Keeps.referencedOutput {r : Nat × TransactionOutput} (hr : db.referencedOutput inp = some r) :
    db'.referencedOutput inp = some r := by
  unfold Db.referencedOutput Db.pqReferencedTx Db.transactionByIndex at hr ⊢
  cases hindex : db.txIndex inp.prevTxid with
  | none =>
    rw [hindex] at hr
    cases hr
  | some pos =>
    obtain ⟨block, slot⟩ := pos
    rw [hindex] at hr
    rw [h.indexed _ _ hindex]
    have hlt : block < db.getChainHeight := by
      by_contra hge
      simp only [hwf.txEntries block slot (Nat.not_lt.mp hge), map_none] at hr
      cases hr
    simp only [h.entries block slot hlt]
    exact hr

variable {P : Primitives}

theorem Keeps.referencedAmount {block : Nat} {out : TransactionOutput} (hs : Spendable P db inp block out) :
    db'.referencedAmount inp = db.referencedAmount inp := by
  unfold Db.referencedAmount
  rw [h.referencedOutput hwf hs.referenced, hs.referenced]

include hlock

/-- What may be spent may still be spent. -/
theorem Keeps.resolveInput {block : Nat} {out : TransactionOutput} (hs : Spendable P db inp block out) :
    db'.resolveInput inp = db.resolveInput inp := by
  unfold Db.resolveInput
  rw [h.referencedOutput hwf hs.referenced, hs.referenced]
  simp only [hs.unlocked, hlock _ hs.unlocked]

variable {tx : Transaction}

theorem Keeps.checkPqInputs
    (hsigning : E.currency.pqSigningContextForHeight db'.getChainHeight =
      E.currency.pqSigningContextForHeight db.getChainHeight) {m : Nat}
    (hm : checkPqInputs E db tx = some m) (hspent : ∀ k ∈ spendImages E.P tx, k ∉ images) :
    checkPqInputs E db' tx = some m := by
  obtain ⟨fee, hok⟩ := PqInputsOk.of_some hm
  have hresolved : tx.pqInputs.map db'.resolveInput = tx.pqInputs.map db.resolveInput := by
    refine map_congr_left ?_
    intro i hi
    obtain ⟨block, out, hs⟩ := hok.spendable i hi
    exact h.resolveInput hwf hlock hs
  have hunspent : tx.pqInputs.any (fun i => (db'.spentKeys (pqNullifier E.P i)).isSome) = false := by
    rw [List.any_eq_false]
    intro i hi
    rw [h.spent _ (hok.unspent i hi) (hspent _ (List.mem_map_of_mem hi))]
    simp
  have hunspent₀ : tx.pqInputs.any (fun i => (db.spentKeys (pqNullifier E.P i)).isSome) = false := by
    rw [List.any_eq_false]
    intro i hi
    rw [hok.unspent i hi]
    simp
  unfold L3.checkPqInputs at hm ⊢
  simp only [hsigning, hresolved, hunspent, hunspent₀] at hm ⊢
  exact hm

omit hwf hlock in
/-- An account that was free is free, if it is not among the new ones. -/
theorem Keeps.unregistered (hold : isPqAccountAlreadyRegistered P db tx = false)
    (hfree : ∀ a, getPqAccountRegistrationId P tx = some a → a ∉ accounts) :
    isPqAccountAlreadyRegistered P db' tx = false := by
  unfold isPqAccountAlreadyRegistered at hold ⊢
  split at hold
  · rfl
  · rename_i a ha
    rw [isSome_eq_false_iff, isNone_iff_eq_none] at hold
    simp only [h.registered a hold (hfree a ha), isSome_none]

/-- A transfer goes on passing. -/
theorem Keeps.transfer
    (hsigning : E.currency.pqSigningContextForHeight db'.getChainHeight =
      E.currency.pqSigningContextForHeight db.getChainHeight) (htype : isPqTransfer tx.txType = true)
    {validationHeight : Option Nat}
    (hera : E.currency.isPqTransferTypeAllowedAt tx.txType (validationHeight.getD db'.getChainHeight) = true)
    (hc : (checkTransactionInputs E db tx none).isSome) (hspent : ∀ k ∈ spendImages E.P tx, k ∉ images)
    (hfree : ∀ a, getPqAccountRegistrationId E.P tx = some a → a ∉ accounts) :
    (checkTransactionInputs E db' tx validationHeight).isSome := by
  obtain ⟨m, hm⟩ := isSome_iff_exists.mp hc
  unfold checkTransactionInputs at hm ⊢
  split at hm; · cases hm
  rename_i hversion
  rw [if_neg hversion]
  split at hm; · cases hm
  rename_i hreg
  rw [htype, Bool.true_or, Bool.true_and, Bool.not_eq_true] at hreg
  rw [h.unregistered hreg hfree, Bool.and_false, if_neg Bool.false_ne_true, if_pos htype, if_neg (not_not.mpr hera)]
  split at hm; · cases hm
  obtain ⟨k, hk, -⟩ := map_eq_some_iff.mp hm
  rw [h.checkPqInputs hwf hlock hsigning hk hspent]
  rfl

end Keeps

/-- `db'` is `db` with some transactions of the next block: they spend `images`, register
`accounts` and are indexed under `ids`. -/
structure Ahead (db db' : Db) (images accounts ids : List Hash) : Prop extends Keeps db db' images accounts where
  metas : db'.metas = db.metas
  hashHeight : db'.hashHeight = db.hashHeight
  unindexed : ∀ id, db.txIndex id = none → id ∉ ids → db'.txIndex id = none

section Ahead
variable {E : Env} {db db' : Db} {images accounts ids : List Hash}

theorem Ahead.refl (db : Db) : Ahead db db [] [] [] :=
  ⟨⟨fun _ h _ => h, fun _ h _ => h, fun _ _ h => h, fun _ _ _ => rfl⟩, rfl, rfl, fun _ h _ => h⟩

theorem Ahead.getChainHeight (h : Ahead db db' images accounts ids) : db'.getChainHeight = db.getChainHeight := by
  rw [Db.getChainHeight, h.metas]
  rfl

variable {tx : Transaction}

/-- One more transaction of the block. -/
theorem Ahead.write {P : Primitives} (h : Ahead db db' images accounts ids) {slot : Nat} {id : Hash}
    (hid : db'.txIndex id = none) :
    Ahead db (writeTransaction P db' db.getChainHeight slot id tx) (images ++ spendImages P tx)
      (accounts ++ (getPqAccountRegistrationId P tx).toList) (ids ++ [id]) := by
  refine ⟨⟨?_, ?_, ?_, ?_⟩, h.metas, h.hashHeight, ?_⟩
  · intro k hk hnot
    rw [mem_append, not_or] at hnot
    rw [writeTransaction_spentKeys, Table.putAll_apply, if_neg hnot.2]
    exact h.spent k hk hnot.1
  · intro a ha hnot
    rw [mem_append, not_or, mem_toList] at hnot
    rw [writeTransaction_pqAcctReg, h.registered a ha hnot.1, none_or, firstRegistration]
    have hother : getPqAccountRegistrationId P tx ≠ some a := hnot.2
    simp [hother]
  · intro k pos hk
    have hk' := h.indexed k pos hk
    rw [writeTransaction_txIndex, Table.put_of_ne]
    · exact hk'
    · rintro rfl
      rw [hid] at hk'
      cases hk'
  · intro height slot' hlt
    rw [writeTransaction_txEntries, Table.put_of_ne _ _ (by simp; omega)]
    exact h.entries height slot' hlt
  · intro k hk hnot
    rw [mem_append, not_or, mem_singleton] at hnot
    rw [writeTransaction_txIndex, Table.put_of_ne _ _ hnot.2]
    exact h.unindexed k hk hnot.1

section
variable (h : Ahead db db' images accounts ids)
include h

theorem Ahead.unlocked (u : UInt64) (hu : db.isTxSpendheightUnlocked u = true) :
    db'.isTxSpendheightUnlocked u = true := by
  rw [Db.isTxSpendheightUnlocked, h.getChainHeight]
  exact hu

theorem Ahead.checkFreeRegInputs {m : Nat} (hm : checkFreeRegInputs E db tx = some m)
    (hfree : ∀ a, getPqAccountRegistrationId E.P tx = some a → a ∉ accounts) :
    checkFreeRegInputs E db' tx = some m := by
  have hstate : ∀ {r}, freeRegChainStateOk E db tx = some r → freeRegChainStateOk E db' tx = some r := by
    intro r hr
    unfold freeRegChainStateOk at hr ⊢
    simp only [h.getChainHeight, h.hashHeight] at hr ⊢
    split at hr
    · rename_i reg pow hreg hpow
      split at hr; · cases hr
      rename_i hcanonical
      rw [if_neg hcanonical]
      split at hr; · cases hr
      split at hr; · cases hr
      rename_i hwindow
      rw [if_neg hwindow]
      split at hr; · cases hr
      rename_i hnew
      rw [Bool.not_eq_true, isSome_eq_false_iff, isNone_iff_eq_none] at hnew
      have haccount : getPqAccountRegistrationId E.P tx = some (getPqAccountIdentityHash E.P reg) := by
        rw [getPqAccountRegistrationId, hreg]
        rfl
      rw [h.registered _ hnew (hfree _ haccount)]
      exact hr
    · cases hr
  unfold L3.checkFreeRegInputs at hm ⊢
  split at hm
  · cases hm
  · rename_i r hr
    rw [hstate hr]
    exact hm

/-- A transaction that passes on the chain passes inside the block. -/
theorem Ahead.checks (hwf : db.Wf)
    (hc : (checkTransactionInputs E db tx none).isSome) (hspent : ∀ k ∈ spendImages E.P tx, k ∉ images)
    (hfree : ∀ a, getPqAccountRegistrationId E.P tx = some a → a ∉ accounts) :
    (checkTransactionInputs E db' tx (some db.getChainHeight)).isSome := by
  by_cases htype : isPqTransfer tx.txType = true
  · have hera : E.currency.isPqTransferTypeAllowedAt tx.txType db.getChainHeight = true := by
      unfold checkTransactionInputs at hc
      split at hc; · cases hc
      split at hc; · cases hc
      split at hc; · cases hc
      rename_i hera
      exact not_not.mp hera
    exact h.transfer hwf h.unlocked (by rw [h.getChainHeight]) htype hera hc hspent hfree
  obtain ⟨m, hm⟩ := isSome_iff_exists.mp hc
  unfold checkTransactionInputs at hm ⊢
  split at hm; · cases hm
  rename_i hversion
  rw [if_neg hversion]
  split at hm; · cases hm
  rename_i hreg
  rw [if_neg htype]
  split at hm
  · rename_i hfreeReg
    have hold : isPqAccountAlreadyRegistered E.P db tx = false := by simpa [hfreeReg] using hreg
    rw [h.unregistered hold hfree, Bool.and_false, if_neg Bool.false_ne_true, if_pos hfreeReg]
    obtain ⟨k, hk, -⟩ := map_eq_some_iff.mp hm
    rw [h.checkFreeRegInputs hk hfree]
    rfl
  · rename_i hfreeReg
    rw [if_neg (by simp [htype, hfreeReg]), if_neg hfreeReg]
    split at hm
    · rename_i hcoinbase
      rw [if_pos hcoinbase]
      rfl
    · cases hm

/-- It pays the fee that it pays on the chain. -/
theorem Ahead.blockTxFee (hwf : db.Wf) (hc : (checkTransactionInputs E db tx none).isSome) :
    blockTxFee db' tx = blockTxFee db tx := by
  obtain ⟨m, hm⟩ := isSome_iff_exists.mp hc
  unfold L3.blockTxFee
  cases (TxInputsOk.of_some hm).2 with
  | transfer fee htype hok =>
    have hamounts : tx.pqInputs.map db'.referencedAmount = tx.pqInputs.map db.referencedAmount := by
      refine map_congr_left ?_
      intro i hi
      obtain ⟨block, out, hs⟩ := hok.spendable i hi
      exact h.referencedAmount hwf hs
    unfold getPqTransactionFee pqReferencedInputAmount
    rw [hamounts]
  | freeReg htype =>
    have hno : ¬ (tx.version ≥ transactionVersion1 ∧ isPqTransfer tx.txType = true) := by
      rw [htype]
      exact fun hand => absurd hand.2 (by decide)
    rw [if_neg hno, if_neg hno]
  | coinbase htype =>
    have hno : ¬ (tx.version ≥ transactionVersion1 ∧ isPqTransfer tx.txType = true) := by
      rw [htype]
      exact fun hand => absurd hand.2 (by decide)
    rw [if_neg hno, if_neg hno]

end

end Ahead

/-! ## The row -/

/-- `x` and a later `y` of one block share no spend tag and no account. -/
def Apart (P : Primitives) (x y : Transaction) : Prop :=
  (∀ k ∈ spendImages P y, k ∉ spendImages P x) ∧
    ∀ a, getPqAccountRegistrationId P y = some a → getPqAccountRegistrationId P x ≠ some a

/-- A transaction that could be the next one on the chain. -/
structure Ready (E : Env) (db : Db) (x : Hash × Transaction) : Prop where
  checked : (checkTransactionInputs E db x.2 none).isSome
  fee : (blockTxFee db x.2).isSome
  nodup : (spendImages E.P x.2).Nodup
  unspent : ∀ k ∈ spendImages E.P x.2, db.spentKeys k = none
  unregistered : ∀ a, getPqAccountRegistrationId E.P x.2 = some a → db.pqAcctReg a = none
  fresh : db.txIndex x.1 = none

/-- Where the loop over a block's transactions stands. -/
structure RowScan (E : Env) (db : Db) (s : BlockScan) (images accounts ids : List Hash) : Prop where
  ahead : Ahead db s.db images accounts ids
  registrations : ∀ a, a ∈ s.pqRegistrationsInBlock ↔ a ∈ accounts

section Row
variable {E : Env} {db : Db} {s : BlockScan} {images accounts ids : List Hash}

theorem pushBlockTx_ready (hwf : db.Wf) (h : RowScan E db s images accounts ids) {x : Hash × Transaction}
    (hx : Ready E db x) (hspent : ∀ k ∈ spendImages E.P x.2, k ∉ images)
    (hfree : ∀ a, getPqAccountRegistrationId E.P x.2 = some a → a ∉ accounts) (hid : x.1 ∉ ids)
    (hroom : isFreeReg x.2 = true → s.freeRegCount + 1 ≤ freeRegPerBlock) :
    ∃ s', pushBlockTx E db.getChainHeight s x = .ok s' ∧ RowScan E db s' (images ++ spendImages E.P x.2)
        (accounts ++ (getPqAccountRegistrationId E.P x.2).toList) (ids ++ [x.1]) ∧
      s'.freeRegCount = s.freeRegCount + (if isFreeReg x.2 then 1 else 0) ∧
      s'.cumulativeBlockSize = s.cumulativeBlockSize + (toBinaryArray x.2).length ∧
      s'.feeSummary = s.feeSummary + (blockTxFee db x.2).getD 0 := by
  obtain ⟨fee, hpays⟩ := isSome_iff_exists.mp hx.fee
  have hchecked := h.ahead.checks hwf hx.checked hspent hfree
  have hfee := h.ahead.blockTxFee hwf hx.checked
  rw [hpays] at hfee ⊢
  have hfresh : TxFresh E.P s.db (s.slot + 1) x.1 x.2 :=
    ⟨h.ahead.unindexed _ hx.fresh hid, fun k hk => h.ahead.spent k (hx.unspent k hk) (hspent k hk), hx.nodup,
      fun _ a ha => h.ahead.registered a (hx.unregistered a ha) (hfree a ha)⟩
  have hpush := pushTransaction_eq_some.mpr ⟨hfresh, (rfl : _ = writeTransaction E.P s.db db.getChainHeight _ _ _)⟩
  have haccount : (getPqAccountRegistrationId E.P x.2).any (· ∈ s.pqRegistrationsInBlock) = false := by
    cases ha : getPqAccountRegistrationId E.P x.2 with
    | none => rfl
    | some a => simpa [h.registrations] using hfree a ha
  unfold pushBlockTx
  simp only [haccount, hfee, hpush]
  rw [if_neg (by rintro ⟨hreg, hfull⟩; have := hroom hreg; omega)]
  simp only [Bool.false_eq_true, if_false]
  rw [if_neg (by rintro ⟨-, hnone⟩; rw [isNone_iff_eq_none] at hnone; rw [hnone] at hchecked; cases hchecked)]
  refine ⟨_, rfl, ⟨h.ahead.write hfresh.id, ?_⟩, ?_, rfl, rfl⟩
  · intro a
    simp only [mem_append, h.registrations, or_comm]
  · simp only
    split
    · rfl
    · rfl

/-- A row of transactions that are ready on the chain and apart from each other goes
through. -/
theorem pushRow (hwf : db.Wf) : ∀ (l : List (Hash × Transaction)) {s : BlockScan}
    {images accounts ids : List Hash}, RowScan E db s images accounts ids → (∀ x ∈ l, Ready E db x) →
    (∀ x ∈ l, (∀ k ∈ spendImages E.P x.2, k ∉ images) ∧
      (∀ a, getPqAccountRegistrationId E.P x.2 = some a → a ∉ accounts) ∧ x.1 ∉ ids) →
    l.Pairwise (fun x y => Apart E.P x.2 y.2) → (l.map Prod.fst).Nodup →
    s.freeRegCount + (l.filter fun x => isFreeReg x.2).length ≤ freeRegPerBlock →
    ∃ s', foldSteps (pushBlockTx E db.getChainHeight) s l = .ok s' ∧
      s'.cumulativeBlockSize = s.cumulativeBlockSize + (l.map fun x => (toBinaryArray x.2).length).sum ∧
      s'.feeSummary = s.feeSummary + (l.map fun x => (blockTxFee db x.2).getD 0).sum
  | [], s, _, _, _, _, _, _, _, _, _ => ⟨s, rfl, by simp, by simp⟩
  | x :: l, s, images, accounts, ids, h, hready, hfree, hapart, hids, hroom => by
    obtain ⟨hspent, haccount, hid⟩ := hfree x (by simp)
    obtain ⟨hhead, htail⟩ := pairwise_cons.mp hapart
    rw [map_cons, nodup_cons] at hids
    have hcount : (if isFreeReg x.2 then 1 else 0) + (l.filter fun y => isFreeReg y.2).length =
        ((x :: l).filter fun y => isFreeReg y.2).length := by
      rw [filter_cons]
      split
      · rw [length_cons]
        omega
      · omega
    obtain ⟨s₁, hstep, h₁, hfreeRegs, hsize, hfee⟩ := pushBlockTx_ready hwf h (hready x (by simp)) hspent haccount hid (by
      intro hreg
      rw [← hcount, if_pos hreg] at hroom
      omega)
    have hfree₁ : ∀ y ∈ l, (∀ k ∈ spendImages E.P y.2, k ∉ images ++ spendImages E.P x.2) ∧
        (∀ a, getPqAccountRegistrationId E.P y.2 = some a →
          a ∉ accounts ++ (getPqAccountRegistrationId E.P x.2).toList) ∧ y.1 ∉ ids ++ [x.1] := by
      intro y hy
      obtain ⟨hspent', haccount', hid'⟩ := hfree y (by simp [hy])
      obtain ⟨himages, haccounts⟩ := hhead y hy
      simp only [mem_append, not_or, mem_toList, mem_singleton]
      refine ⟨fun k hk => ⟨hspent' k hk, himages k hk⟩, fun a ha => ⟨haccount' a ha, haccounts a ha⟩, hid', ?_⟩
      intro he
      exact hids.1 (he ▸ List.mem_map_of_mem hy)
    obtain ⟨s', hrest, hsize', hfee'⟩ := pushRow hwf l h₁ (fun y hy => hready y (by simp [hy])) hfree₁ htail hids.2
      (by rw [hfreeRegs]; omega)
    refine ⟨s', foldSteps_cons_ok.mpr ⟨s₁, hstep, hrest⟩, ?_, ?_⟩
    · rw [hsize', hsize, map_cons, sum_cons, Nat.add_assoc]
    · rw [hfee', hfee, map_cons, sum_cons, UInt64.add_assoc]

end Row

/-- The transactions of a block are such a row. -/
structure ReadyRow (E : Env) (db : Db) (b : Block) (txs : List Transaction) : Prop where
  ready : ∀ x ∈ b.transactionHashes.zip txs, Ready E db x
  apart : (b.transactionHashes.zip txs).Pairwise fun x y => Apart E.P x.2 y.2
  ids : ((b.transactionHashes.zip txs).map Prod.fst).Nodup
  coinbase : ∀ x ∈ b.transactionHashes.zip txs, x.1 ≠ getObjectHash E.P b.baseTransaction
  room : ((b.transactionHashes.zip txs).filter fun x => isFreeReg x.2).length ≤ freeRegPerBlock

variable {b : Block}

/-- The block is refused for its coinbase or not at all, and adds up sizes and fees. -/
theorem pushBlockTransactions_row {E : Env} {db : Db} (hwf : db.Wf) {txs : List Transaction}
    (h : ReadyRow E db b txs) (himages : spendImages E.P b.baseTransaction = []) :
    pushBlockTransactions E db b txs = .error .coinbase ∨ ∃ s, pushBlockTransactions E db b txs = .ok s ∧
      s.cumulativeBlockSize = getObjectBinarySize b.baseTransaction +
        ((b.transactionHashes.zip txs).map fun x => (toBinaryArray x.2).length).sum ∧
      s.feeSummary = ((b.transactionHashes.zip txs).map fun x => (blockTxFee db x.2).getD 0).sum := by
  unfold pushBlockTransactions
  cases hpush : pushTransaction E.P db db.getChainHeight 0 (getObjectHash E.P b.baseTransaction) b.baseTransaction with
  | none => exact .inl rfl
  | some db₀ =>
    obtain ⟨hfresh, rfl⟩ := pushTransaction_eq_some.mp hpush
    refine .inr ?_
    -- the coinbase registers nothing
    have hahead : Ahead db (writeTransaction E.P db db.getChainHeight 0 (getObjectHash E.P b.baseTransaction)
        b.baseTransaction) [] [] [getObjectHash E.P b.baseTransaction] := by
      have hwrite : Ahead db (writeTransaction E.P db db.getChainHeight 0 (getObjectHash E.P b.baseTransaction)
        b.baseTransaction) _ _ _ := (Ahead.refl db).write hfresh.id
      obtain ⟨⟨hspent, -, hindexed, hentries⟩, hmetas, hhashes, hunindexed⟩ := hwrite
      rw [himages] at hspent
      refine ⟨⟨hspent, ?_, hindexed, hentries⟩, hmetas, hhashes, hunindexed⟩
      intro a ha _
      simp [writeTransaction, pushRegistration, ha]
    have hfree : ∀ x ∈ b.transactionHashes.zip txs, (∀ k ∈ spendImages E.P x.2, k ∉ []) ∧
        (∀ a, getPqAccountRegistrationId E.P x.2 = some a → a ∉ []) ∧ x.1 ∉ [getObjectHash E.P b.baseTransaction] := by
      intro x hx
      exact ⟨fun _ _ => not_mem_nil, fun _ _ => not_mem_nil, by simpa using h.coinbase x hx⟩
    let start : BlockScan :=
      { db := writeTransaction E.P db db.getChainHeight 0 (getObjectHash E.P b.baseTransaction) b.baseTransaction
        slot := 0
        freeRegCount := 0
        pqRegistrationsInBlock := []
        cumulativeBlockSize := getObjectBinarySize b.baseTransaction
        feeSummary := 0 }
    have hstart : RowScan E db start [] [] [getObjectHash E.P b.baseTransaction] := ⟨hahead, fun _ => Iff.rfl⟩
    obtain ⟨s, hs, hsize, hfee⟩ := pushRow hwf (b.transactionHashes.zip txs) hstart h.ready hfree h.apart h.ids
      (by rw [Nat.zero_add]; exact h.room)
    exact ⟨s, hs, hsize, by rw [hfee, UInt64.zero_add]⟩

/-- The refusals that come from a transaction after the coinbase. -/
def BlockError.blamesTransaction : BlockError → Bool
  | .freeRegLimit | .duplicateRegistration | .balance | .inputs | .transaction => true
  | .alreadyExists | .version | .mergeMiningTag | .previousHash | .timestamp | .difficulty | .checkpoint
  | .proofOfWork | .minerTransaction | .signature | .coinbase | .size | .reward => false

variable {id : Hash} {e : BlockError}

theorem checkBlockHeader_error {E : Env} {now : Nat} {alt : Hash → Option BlockEntry} {db : Db}
    (h : checkBlockHeader E now alt db b id = .error e) : e.blamesTransaction = false := by
  unfold checkBlockHeader at h
  split at h; · cases h; rfl
  split at h; · cases h; rfl
  split at h; · cases h; rfl
  split at h; · cases h; rfl
  split at h; · cases h; rfl
  dsimp only at h
  split at h
  · cases h; rfl
  · cases h

theorem checkBlockProof_error {E : Env} {height : Nat} {difficulty : UInt64} {prevalidated : Option Hash}
    (h : checkBlockProof E height id b difficulty prevalidated = .error e) : e.blamesTransaction = false := by
  unfold checkBlockProof at h
  split at h; · cases h
  split at h
  · split at h
    · cases h
    · cases h; rfl
  split at h; · cases h; rfl
  split at h
  · cases h
  · cases h; rfl

/-- No transaction of the row is a reason to refuse the block. -/
theorem pushBlock_row {E : Env} {db : Db} (hwf : db.Wf) {txs : List Transaction} (h : ReadyRow E db b txs)
    {now : Nat} {alt : Hash → Option BlockEntry} {prevalidated : Option Hash}
    (he : pushBlock E now alt prevalidated db b id txs = .error e) : e.blamesTransaction = false := by
  unfold pushBlock at he
  split at he
  · rename_i hheader
    cases he
    exact checkBlockHeader_error hheader
  dsimp only at he
  split at he
  · rename_i hproof
    cases he
    exact checkBlockProof_error hproof
  split at he; · cases he; rfl
  rename_i hminer
  split at he; · cases he; rfl
  obtain ⟨i, hinputs, -⟩ := (MinerTx.of_true (not_not.mp hminer)).input
  have himages : spendImages E.P b.baseTransaction = [] := by
    rw [spendImages, TransactionPrefix.pqInputs, hinputs]
    rfl
  split at he
  · rename_i htransactions
    cases he
    rcases pushBlockTransactions_row hwf h himages with hcoinbase | ⟨s, hs, -⟩
    · rw [hcoinbase] at htransactions
      cases htransactions
      rfl
    · rw [hs] at htransactions
      cases htransactions
  split at he; · cases he; rfl
  split at he
  · cases he; rfl
  · cases he

/-! ## Another block -/

theorem Ahead.writes {P : Primitives} {db : Db} : ∀ {l : List (Hash × Transaction)} {db' : Db} {slot : Nat}
    {images accounts ids : List Hash}, Ahead db db' images accounts ids → FreshRun P db.getChainHeight db' slot l →
    Ahead db (writeTransactions P db.getChainHeight db' slot l) (images ++ l.flatMap fun x => spendImages P x.2)
      (accounts ++ l.flatMap fun x => (getPqAccountRegistrationId P x.2).toList) (ids ++ l.map Prod.fst)
  | [], _, _, _, _, _, h, _ => by simpa [writeTransactions] using h
  | x :: l, _, _, _, _, _, h, hfresh => by
    have hrest := Ahead.writes (h.write hfresh.1.id) hfresh.2
    rw [writeTransactions]
    simpa only [flatMap_cons, map_cons, append_assoc, singleton_append] using hrest

variable {sb : StoredBlock}

/-- A block adds the tags and accounts of its transactions. -/
theorem Keeps.stored {P : Primitives} {db : Db} (h : Undoable P db sb) :
    Keeps db (writeStored P db sb) ((sb.block.baseTransaction :: sb.txs).flatMap (spendImages P))
      ((sb.block.baseTransaction :: sb.txs).flatMap fun tx => (getPqAccountRegistrationId P tx).toList) := by
  have hwrites := (Ahead.writes (Ahead.refl db) h.fresh).toKeeps
  rw [← h.sized.snd P, flatMap_map, flatMap_map]
  exact ⟨hwrites.spent, hwrites.registered, hwrites.indexed, hwrites.entries⟩

/-- Outputs stay unlocked. -/
theorem Pushed.unlocked {E : Env} {clock : Nat} {db db' : Db} (h : Pushed E clock db sb db')
    (hpos : 0 < db.getChainHeight) (u : UInt64) (hu : db.isTxSpendheightUnlocked u = true) :
    db'.isTxSpendheightUnlocked u = true := by
  -- the coinbase states the height in 32 bits
  have hlt : db.getChainHeight < 2 ^ 32 := by
    obtain ⟨now, -, alt, prevalidated, -, hpush⟩ := h.pushed
    obtain ⟨s, difficulty, reward, emission, hok, -⟩ := pushBlock_ok.mp hpush
    obtain ⟨i, -, hi⟩ := (MinerTx.of_true hok.miner).input
    have := i.blockIndex.toNat_lt
    omega
  have hheight : db'.getChainHeight = db.getChainHeight + 1 := by
    rw [h.written, writeStored_getChainHeight]
  unfold Db.isTxSpendheightUnlocked at hu ⊢
  split at hu
  · rename_i h0
    rw [if_pos h0]
  · rename_i h0
    rw [if_neg h0]
    split at hu
    · cases hu
    · rename_i hmax
      rw [if_neg hmax, hheight]
      simp only [decide_eq_true_eq] at hu ⊢
      omega

/-- A transfer that passes on the chain passes after a block that it does not conflict
with, unless the rules change there. -/
theorem Pushed.transfer {E : Env} {clock : Nat} {db db' : Db} (h : Pushed E clock db sb db')
    (hwf : db.Wf) (hpos : 0 < db.getChainHeight)
    (hsigning : E.currency.pqSigningContextForHeight (db.getChainHeight + 1) =
      E.currency.pqSigningContextForHeight db.getChainHeight) {tx : Transaction} (htype : isPqTransfer tx.txType = true)
    (hera : E.currency.isPqTransferTypeAllowedAt tx.txType (db.getChainHeight + 1) = true)
    (hc : (checkTransactionInputs E db tx none).isSome)
    (hapart : ∀ y ∈ sb.block.baseTransaction :: sb.txs, Apart E.P y tx) :
    (checkTransactionInputs E db' tx none).isSome := by
  have hkeeps := Keeps.stored h.undoable
  rw [← h.written] at hkeeps
  have hheight : db'.getChainHeight = db.getChainHeight + 1 := by
    rw [h.written, writeStored_getChainHeight]
  refine hkeeps.transfer hwf (h.unlocked hpos) (by rw [hheight, hsigning]) htype ?_ hc ?_ ?_
  · rw [getD_none, hheight]
    exact hera
  · intro k hk hmem
    obtain ⟨y, hy, hky⟩ := mem_flatMap.mp hmem
    exact (hapart y hy).1 k hk hky
  · intro a ha hmem
    obtain ⟨y, hy, hay⟩ := mem_flatMap.mp hmem
    exact (hapart y hy).2 a ha (mem_toList.mp hay)

end Discrete.L3
