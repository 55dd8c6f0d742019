import Discrete.L6Wallet.Receipts
import Discrete.L6Wallet.Consumer

/-!
# The ledger and the chain

A ledger is shown transactions in the pool, sees them dropped or confirmed, and sees
blocks rolled back. When nothing is left in the pool it should be the ledger of
someone who only ever scanned the confirmed chain.

`Conv` runs a ledger through such events and keeps the confirmed chain beside it;
`scanChain` is the ledger that scans the chain only. `Related` compares the two while
transactions are pending: a record of the chain may carry the spend mark of a pending
transaction, a pending transaction may have records and a row of its own, and that row
already holds the sums it will have once confirmed.

`converges`: without pending transactions the two agree, in every run in which a
transaction first seen in the pool finds every output of the wallet that it spends
recorded and unspent. Of two pool transactions that spend the same output the second
does not; its row counts only what it receives, and confirmation does not correct it
(`replacement_row_wrong`).
-/
namespace Discrete.L6
open List Option L1 L2 L3

structure ChainEntry where
  txid : Hash
  height : UInt32
  timestamp : UInt64
  deriving DecidableEq

structure Conv where
  ledger : Ledger
  /-- Seen in the pool, and neither dropped nor confirmed since. -/
  pending : Finset Hash
  /-- The confirmed chain. -/
  chain : List ChainEntry

inductive ConvEvent where
  | sight (txid : Hash) (timestamp : UInt64)
  | drop (txid : Hash)
  | confirm (e : ChainEntry)
  | rollback (h : UInt32)

section
variable (W : WalletPrimitives) (V : TxView) (K : LedgerKeys)

def Ledger.confirmEntry (L : Ledger) (e : ChainEntry) : Ledger :=
  match V.tx e.txid with
  | some tx => L.scanReader W e.height e.timestamp (e.txid, tx)
  | none => L

/-- A fresh ledger that scans the chain only. -/
def scanChain (chain : List ChainEntry) : Ledger := chain.foldl (Ledger.confirmEntry W V) (Ledger.fresh K)

def Conv.step (S : Conv) : ConvEvent → Option Conv
  | .sight txid timestamp => (V.tx txid).map fun tx =>
      { S with
        ledger := (S.ledger.processTransaction W tx txid unconfirmedHeight timestamp).1
        pending := insert txid S.pending }
  | .drop txid => some
      { S with ledger := S.ledger.removeUnconfirmedTransaction txid, pending := S.pending.erase txid }
  | .confirm e => (V.tx e.txid).map fun tx =>
      { ledger := (S.ledger.processTransaction W tx e.txid e.height e.timestamp).1
        pending := S.pending.erase e.txid
        chain := S.chain ++ [e] }
  | .rollback h => some
      { S with ledger := S.ledger.rollbackToHeight h, chain := S.chain.filter fun e => decide (e.height < h) }

def convMachine : Machine Conv ConvEvent where
  Init S := S = ⟨Ledger.fresh K, ∅, []⟩
  step := Conv.step W V

/-! ## Chains -/

def CreatedIn (chain : List ChainEntry) (nf : Hash) : Prop :=
  ∃ d ∈ chain, ∃ tx ∈ V.tx d.txid, ∃ r ∈ ownReceipts W K tx d.height, r.nullifier W d.txid = nf

def SpentIn (chain : List ChainEntry) (nf : Hash) : Prop :=
  ∃ d ∈ chain, ∃ tx ∈ V.tx d.txid, nf ∈ spentNullifiers W tx

/-- What consensus asks of the next transaction: it comes in order and once, and what
it spends of the wallet was created before it and not spent. -/
structure ValidNext (chain : List ChainEntry) (e : ChainEntry) : Prop where
  known : ∃ tx, V.tx e.txid = some tx
  height : e.height ≠ unconfirmedHeight
  order : ∀ d ∈ chain, d.height ≤ e.height
  once : ∀ d ∈ chain, d.txid ≠ e.txid
  spends : ∀ tx ∈ V.tx e.txid, ∀ nf ∈ spentNullifiers W tx, OwnedNullifier W V K nf →
    CreatedIn W V K chain nf ∧ ¬ SpentIn W V chain nf

inductive ValidChain : List ChainEntry → Prop where
  | nil : ValidChain []
  | snoc {chain e} : ValidChain chain → ValidNext W V K chain e → ValidChain (chain ++ [e])

/-- Confirmations extend a valid chain, and a coinbase is never in the pool. -/
def ValidEvent (S : Conv) : ConvEvent → Prop
  | .sight txid _ => ∀ tx ∈ V.tx txid, tx.txType ≠ txCoinbase
  | .confirm e => ValidNext W V K S.chain e
  | _ => True

/-- The first sight of a pool transaction finds what it spends of the wallet. -/
def CleanSight (S : Conv) : ConvEvent → Prop
  | .sight txid _ => S.ledger.history.find txid = none → ∀ tx ∈ V.tx txid, ∀ nf ∈ spentNullifiers W tx,
      OwnedNullifier W V K nf → ∃ o ∈ S.ledger.outputs.find nf, o.spent = false
  | _ => True

/-- The hash has no collision where the wallet uses it, transactions are of the one
version there is, and the amounts of a transaction add up. -/
structure SoundView : Prop where
  collisionFree : CollisionFree W V K
  version : ∀ {txid tx}, V.tx txid = some tx → ¬ tx.version < transactionVersion1
  debits_lt : ∀ {txid tx}, V.tx txid = some tx →
    ∑ nf ∈ (spentNullifiers W tx).toFinset, (ownedAmount W V K nf).toNat < 2 ^ 64
  credits_lt : ∀ {txid tx}, V.tx txid = some tx → ∀ k, ((ownReceipts W K tx k).map fun r => r.amount.toNat).sum < 2 ^ 64

end

/-! ## Scanning a valid chain -/

section
variable {W : WalletPrimitives} {V : TxView} {K : LedgerKeys} {F : Ledger} {chain : List ChainEntry} {e : ChainEntry}

structure Scanned (W : WalletPrimitives) (V : TxView) (K : LedgerKeys) (F : Ledger) (chain : List ChainEntry) :
    Prop where
  keys : F.keys = K
  settled : F.Settled unconfirmedHeight.toNat
  created : ∀ nf, ∀ o ∈ F.outputs.find nf, ∃ d ∈ chain, ∃ tx ∈ V.tx d.txid, ∃ r ∈ ownReceipts W K tx d.height,
    r.nullifier W d.txid = nf ∧ o.unspend = r.record W d.txid d.height
  found : ∀ nf, CreatedIn W V K chain nf → ∃ o, F.outputs.find nf = some o
  spent : ∀ nf, ∀ o ∈ F.outputs.find nf, o.spent = true ↔ SpentIn W V chain nf
  rows : ∀ t, F.history.find t ≠ none → ∃ d ∈ chain, d.txid = t
  source : ∀ nf, SpentIn W V chain nf → OwnedNullifier W V K nf → CreatedIn W V K chain nf

theorem PqWalletOutput.unspend_spendBy (o : PqWalletOutput) (txid : Hash) (k : UInt32) :
    (o.spendBy txid k).unspend = o.unspend := by
  unfold spendBy
  split
  · rfl
  · split <;> rfl

theorem toNat_lt_unconfirmed {k : UInt32} (h : k ≠ unconfirmedHeight) : k.toNat < unconfirmedHeight.toNat := by
  have hlt := k.toNat_lt
  have hmax : unconfirmedHeight.toNat = 2 ^ 32 - 1 := by decide
  have hne : k.toNat ≠ unconfirmedHeight.toNat := fun e => h (UInt32.toNat_inj.mp e)
  omega

variable {nf : Hash}

theorem CreatedIn.mono (h : CreatedIn W V K chain nf) : CreatedIn W V K (chain ++ [e]) nf := by
  obtain ⟨d, hd, rest⟩ := h
  exact ⟨d, mem_append_left _ hd, rest⟩

theorem spentIn_snoc :
    SpentIn W V (chain ++ [e]) nf ↔ SpentIn W V chain nf ∨ ∃ tx ∈ V.tx e.txid, nf ∈ spentNullifiers W tx := by
  simp only [SpentIn, mem_append, mem_singleton]
  constructor
  · intro ⟨d, hd, tx, htx, hnf⟩
    rcases hd with hd | rfl
    · exact .inl ⟨d, hd, tx, htx, hnf⟩
    · exact .inr ⟨tx, htx, hnf⟩
  · intro h
    rcases h with ⟨d, hd, tx, htx, hnf⟩ | ⟨tx, htx, hnf⟩
    · exact ⟨d, .inl hd, tx, htx, hnf⟩
    · exact ⟨e, .inr rfl, tx, htx, hnf⟩

theorem Scanned.owned (h : Scanned W V K F chain) {o : PqWalletOutput} (ho : F.outputs.find nf = some o) :
    OwnedNullifier W V K nf := by
  obtain ⟨d, -, tx, htx, r, hr, e, -⟩ := h.created nf o ho
  exact ⟨d.txid, r, ⟨tx, htx, d.height, hr⟩, e⟩

/-- What a transaction outside the chain pays is not recorded. -/
theorem Scanned.find_outside (h : Scanned W V K F chain) (hcf : CollisionFree W V K) {txid : Hash} {r : Receipt}
    (hr : Recognised W V K txid r) (hout : ∀ d ∈ chain, d.txid ≠ txid) :
    F.outputs.find (r.nullifier W txid) = none := by
  cases hfind : F.outputs.find (r.nullifier W txid) with
  | none => rfl
  | some o =>
    obtain ⟨d, hd, tx, htx, r', hr', e, -⟩ := h.created _ o hfind
    exact absurd (Recognised.unique hcf ⟨tx, htx, d.height, hr'⟩ hr e).1 (hout d hd)

/-- What the next transaction spends of the wallet is there and unspent. -/
theorem Scanned.find_spends (h : Scanned W V K F chain) (hnext : ValidNext W V K chain e) {tx : TransactionPrefix}
    (htx : V.tx e.txid = some tx) (hnf : nf ∈ spentNullifiers W tx) (hown : OwnedNullifier W V K nf) :
    ∃ o, F.outputs.find nf = some o ∧ o.spent = false := by
  obtain ⟨hcreated, hunspent⟩ := hnext.spends tx htx nf hnf hown
  obtain ⟨o, ho⟩ := h.found nf hcreated
  refine ⟨o, ho, ?_⟩
  rw [← Bool.not_eq_true]
  exact fun hs => hunspent ((h.spent nf o ho).mp hs)

theorem Scanned.snoc (hV : SoundView W V K) (h : Scanned W V K F chain) (hnext : ValidNext W V K chain e) :
    Scanned W V K (F.confirmEntry W V e) (chain ++ [e]) := by
  obtain ⟨tx, htx⟩ := hnext.known
  have hv := hV.version htx
  have hentry : F.confirmEntry W V e = (F.processTransaction W tx e.txid e.height e.timestamp).1 := by
    rw [Ledger.confirmEntry, htx]
    rfl
  have hnone : ∀ r ∈ ownReceipts W K tx e.height, F.outputs.find (r.nullifier W e.txid) = none := fun r hr =>
    h.find_outside hV.collisionFree ⟨tx, htx, e.height, hr⟩ hnext.once
  have hreceipt : ∀ r ∈ ownReceipts W K tx e.height,
      (F.confirmEntry W V e).outputs.find (r.nullifier W e.txid) = some (r.record W e.txid e.height) := by
    intro r hr
    rw [hentry, find_process_receipt hV.collisionFree htx hv h.keys hr, hnone r hr]
    rfl
  have hother : ∀ nf, (∀ r ∈ ownReceipts W K tx e.height, r.nullifier W e.txid ≠ nf) →
      (F.confirmEntry W V e).outputs.find nf =
        (F.outputs.find nf).map (PqWalletOutput.spentBy W tx e.txid e.height nf) := by
    intro nf hnf
    rw [hentry, find_process_other hv h.keys hnf]
  -- every record is a receipt of `e` or an older one, perhaps spent by `e`
  have hcases : ∀ nf o', (F.confirmEntry W V e).outputs.find nf = some o' →
      (∃ r ∈ ownReceipts W K tx e.height, r.nullifier W e.txid = nf ∧ o' = r.record W e.txid e.height) ∨
      ∃ o, F.outputs.find nf = some o ∧ o' = o.spentBy W tx e.txid e.height nf := by
    intro nf o' ho'
    by_cases hr : ∃ r ∈ ownReceipts W K tx e.height, r.nullifier W e.txid = nf
    · obtain ⟨r, hr, rfl⟩ := hr
      rw [hreceipt r hr, some.injEq] at ho'
      exact .inl ⟨r, hr, rfl, ho'.symm⟩
    · rw [hother nf fun r hrm e => hr ⟨r, hrm, e⟩] at ho'
      obtain ⟨o, ho, rfl⟩ := map_eq_some_iff.mp ho'
      exact .inr ⟨o, ho, rfl⟩
  have hscan := h.settled.scanReader (W := W) (Nat.le_refl _) (toNat_lt_unconfirmed hnext.height)
    (UInt32.le_refl e.height) e.timestamp (e.txid, tx)
  refine ⟨?_, ?_, ?_, ?_, ?_, ?_, ?_⟩
  · rw [hentry, F.keys_processTransaction, h.keys]
  · rw [hentry]
    exact hscan.1
  · intro nf o' ho'
    rcases hcases nf o' ho' with ⟨r, hr, hnf, rfl⟩ | ⟨o, ho, rfl⟩
    · exact ⟨e, by simp, tx, htx, r, hr, hnf, rfl⟩
    · obtain ⟨d, hd, tx', htx', r, hr, hnf, hrec⟩ := h.created nf o ho
      refine ⟨d, mem_append_left _ hd, tx', htx', r, hr, hnf, ?_⟩
      rw [← hrec, PqWalletOutput.spentBy]
      split
      · exact o.unspend_spendBy _ _
      · rfl
  · intro nf hcr
    by_cases hr : ∃ r ∈ ownReceipts W K tx e.height, r.nullifier W e.txid = nf
    · obtain ⟨r, hr, rfl⟩ := hr
      exact ⟨_, hreceipt r hr⟩
    · obtain ⟨d, hd, tx', htx', r, hrm, hnf⟩ := hcr
      rcases mem_append.mp hd with hd | hd
      · obtain ⟨o, ho⟩ := h.found nf ⟨d, hd, tx', htx', r, hrm, hnf⟩
        exact ⟨_, by rw [hother nf fun r hrm e => hr ⟨r, hrm, e⟩, ho]; rfl⟩
      · obtain rfl := mem_singleton.mp hd
        obtain rfl : tx' = tx := some.inj (htx'.symm.trans htx)
        exact absurd ⟨r, hrm, hnf⟩ hr
  · intro nf o' ho'
    rw [spentIn_snoc]
    rcases hcases nf o' ho' with ⟨r, hr, rfl, rfl⟩ | ⟨o, ho, rfl⟩
    · -- a fresh output: whoever had spent it would have had to find it created
      have hown : OwnedNullifier W V K (r.nullifier W e.txid) := ⟨e.txid, r, ⟨tx, htx, e.height, hr⟩, rfl⟩
      have hnot : ¬ CreatedIn W V K chain (r.nullifier W e.txid) := fun hcr => by
        obtain ⟨o, ho⟩ := h.found _ hcr
        rw [hnone r hr] at ho
        cases ho
      constructor
      · intro hs
        cases hs
      · intro hs
        rcases hs with hs | ⟨tx', htx', hs⟩
        · exact absurd (h.source _ hs hown) hnot
        · exact absurd (hnext.spends tx' htx' _ hs hown).1 hnot
    · rw [PqWalletOutput.spentBy]
      by_cases hnf : nf ∈ spentNullifiers W tx
      · rw [if_pos hnf]
        exact ⟨fun _ => .inr ⟨tx, htx, hnf⟩, fun _ => o.spent_spendBy⟩
      · rw [if_neg hnf, h.spent nf o ho]
        refine ⟨.inl, fun hs => ?_⟩
        rcases hs with hs | ⟨tx', htx', hs⟩
        · exact hs
        · obtain rfl : tx' = tx := some.inj (htx'.symm.trans htx)
          exact absurd hs hnf
  · intro t ht
    rw [hentry, history_process hV.collisionFree htx hv h.keys, find_updateHistory] at ht
    by_cases e' : t = e.txid
    · exact ⟨e, by simp, e'.symm⟩
    · rw [if_neg e'] at ht
      obtain ⟨d, hd, hdt⟩ := h.rows t ht
      exact ⟨d, mem_append_left _ hd, hdt⟩
  · intro nf hs hown
    rcases spentIn_snoc.mp hs with hs | ⟨tx', htx', hs⟩
    · exact (h.source nf hs hown).mono
    · exact (hnext.spends tx' htx' nf hs hown).1.mono

theorem scanChain_snoc : scanChain W V K (chain ++ [e]) = (scanChain W V K chain).confirmEntry W V e := by
  rw [scanChain, foldl_append]
  rfl

theorem ValidChain.scanned (hV : SoundView W V K) (h : ValidChain W V K chain) :
    Scanned W V K (scanChain W V K chain) chain := by
  induction h with
  | nil =>
    exact ⟨rfl, ⟨(fun _ ho => by cases ho), (fun _ ht => by cases ht)⟩, by simp [scanChain, Ledger.fresh],
      by simp [CreatedIn], by simp [scanChain, Ledger.fresh], by simp [scanChain, Ledger.fresh], by simp [SpentIn]⟩
  | snoc _ hnext ih =>
    rw [scanChain_snoc]
    exact ih.snoc hV hnext

/-! ### Rolling a chain back -/

theorem confirmEntry_settled {L : Ledger} {n : Nat} (hL : L.Settled n) (hn : n ≤ unconfirmedHeight.toNat)
    (hk : e.height.toNat < n) {h : UInt32} (hh : h ≤ e.height) :
    (L.confirmEntry W V e).Settled n ∧ (L.confirmEntry W V e).rollbackToHeight h = L.rollbackToHeight h := by
  unfold Ledger.confirmEntry
  split
  · exact hL.scanReader hn hk hh e.timestamp _
  · exact ⟨hL, rfl⟩

theorem scanChain_settled {n : Nat} (hn : n ≤ unconfirmedHeight.toNat) (hk : ∀ d ∈ chain, d.height.toNat < n) :
    (scanChain W V K chain).Settled n :=
  foldlRecOn chain _ ⟨(fun _ ho => by cases ho), (fun _ ht => by cases ht)⟩ fun _ hL d hd =>
    (confirmEntry_settled hL hn (hk d hd) (UInt32.le_refl _)).1

theorem ValidChain.rollback (h : ValidChain W V K chain) (k : UInt32) :
    ValidChain W V K (chain.filter fun e => decide (e.height < k)) ∧
      ((scanChain W V K chain).rollbackToHeight k).content =
        (scanChain W V K (chain.filter fun e => decide (e.height < k))).content := by
  induction h with
  | nil => exact ⟨.nil, Ledger.Settled.rollback_content ⟨(fun _ ho => by cases ho), (fun _ ht => by cases ht)⟩⟩
  | @snoc chain e hchain hnext ih =>
    by_cases hlt : e.height < k
    · -- the heights are in order: nothing of the chain is at `k` or above
      have hall : ∀ d ∈ chain ++ [e], d.height.toNat < k.toNat := by
        intro d hd
        rw [UInt32.lt_iff_toNat_lt] at hlt
        rcases mem_append.mp hd with hd | hd
        · have := UInt32.le_iff_toNat_le.mp (hnext.order d hd)
          omega
        · obtain rfl := mem_singleton.mp hd
          exact hlt
      have hsame : (chain ++ [e]).filter (fun e => decide (e.height < k)) = chain ++ [e] :=
        filter_eq_self.mpr fun d hd => decide_eq_true (UInt32.lt_iff_toNat_lt.mpr (hall d hd))
      have hk : k.toNat ≤ unconfirmedHeight.toNat := by
        have hmax : unconfirmedHeight.toNat = 2 ^ 32 - 1 := by decide
        have := k.toNat_lt
        omega
      rw [hsame]
      exact ⟨.snoc hchain hnext, (scanChain_settled hk hall).rollback_content⟩
    · have hdrop : (chain ++ [e]).filter (fun e => decide (e.height < k)) = chain.filter fun e => decide (e.height < k) := by
        simp [hlt]
      have hheights : ∀ d ∈ chain, d.height.toNat < unconfirmedHeight.toNat := fun d hd =>
        Nat.lt_of_le_of_lt (UInt32.le_iff_toNat_le.mp (hnext.order d hd)) (toNat_lt_unconfirmed hnext.height)
      have hsettled : (scanChain W V K chain).Settled unconfirmedHeight.toNat :=
        scanChain_settled (Nat.le_refl _) hheights
      rw [hdrop, scanChain_snoc, (confirmEntry_settled hsettled (Nat.le_refl _) (toNat_lt_unconfirmed hnext.height)
        (UInt32.not_lt.mp hlt)).2]
      exact ih

end

/-! ## A ledger with pending transactions -/

/-- The spend mark of a pool transaction. -/
def PqWalletOutput.withMark (o : PqWalletOutput) : Option Hash → PqWalletOutput
  | none => o
  | some A => { o with spent := true, spentHeight := unconfirmedHeight, spentTxid := A }

section
variable (W : WalletPrimitives) (V : TxView) (K : LedgerKeys)

def SpendsNullifier (A nf : Hash) : Prop := ∃ tx ∈ V.tx A, nf ∈ spentNullifiers W tx

structure PoolTx (S : Conv) (A : Hash) : Prop where
  pending : A ∈ S.pending
  outside : ∀ d ∈ S.chain, d.txid ≠ A
  transfer : ∀ tx ∈ V.tx A, tx.txType ≠ txCoinbase

/-- Nothing it spends or pays is worth anything. -/
def Worthless (A : Hash) : Prop :=
  ∀ tx ∈ V.tx A, (∀ nf ∈ spentNullifiers W tx, ownedAmount W V K nf = 0) ∧
    ∀ r ∈ ownReceipts W K tx unconfirmedHeight, r.amount = 0

/-- A pool transaction with a row, or without need of one. -/
structure Touching (S : Conv) (A : Hash) : Prop extends PoolTx V S A where
  row : (∃ t ∈ S.ledger.history.find A, t.height = unconfirmedHeight) ∨ Worthless W V K A

/-- The record under a nullifier in the ledger, and in the ledger of the chain. -/
inductive OutRel (S : Conv) (nf : Hash) : Option PqWalletOutput → Option PqWalletOutput → Prop where
  | absent : OutRel S nf none none
  | chain (o : PqWalletOutput) (mark : Option Hash) :
      (∀ A ∈ mark, o.spent = false ∧ SpendsNullifier W V A nf ∧ Touching W V K S A) →
      OutRel S nf (some (o.withMark mark)) (some o)
  | pool (txid : Hash) (r : Receipt) (mark : Option Hash) : Touching W V K S txid →
      (∃ tx ∈ V.tx txid, r ∈ ownReceipts W K tx unconfirmedHeight) → r.nullifier W txid = nf →
      (∀ A ∈ mark, SpendsNullifier W V A nf ∧ Touching W V K S A) →
      OutRel S nf (some ((r.record W txid unconfirmedHeight).withMark mark)) none

/-- The row of a transaction in both. A pending one already has its final sums. -/
inductive RowRel (S : Conv) (txid : Hash) : Option PqWalletTransaction → Option PqWalletTransaction → Prop where
  | same (t : Option PqWalletTransaction) : RowRel S txid t t
  | pool (tx : TransactionPrefix) (timestamp : UInt64) : V.tx txid = some tx → PoolTx V S txid →
      (debits W V K tx > 0 ∨ credits W K tx unconfirmedHeight > 0) → RowRel S txid
        (some (newRow tx txid unconfirmedHeight timestamp (debits W V K tx) (credits W K tx unconfirmedHeight))) none

structure Related (S : Conv) (F : Ledger) : Prop where
  keys : S.ledger.keys = K
  outputs : ∀ nf, OutRel W V K S nf (S.ledger.outputs.find nf) (F.outputs.find nf)
  rows : ∀ t, RowRel W V K S t (S.ledger.history.find t) (F.history.find t)

end

section
variable {W : WalletPrimitives} {V : TxView} {K : LedgerKeys} {F : Ledger} {S : Conv}

theorem PqWalletOutput.amount_withMark (o : PqWalletOutput) (mark : Option Hash) :
    (o.withMark mark).amount = o.amount := by
  cases mark <;> rfl

theorem PqWalletOutput.height_withMark (o : PqWalletOutput) (mark : Option Hash) :
    (o.withMark mark).height = o.height := by
  cases mark <;> rfl

namespace Related

variable {nf : Hash} {o : PqWalletOutput}

theorem owned (h : Related W V K S F) (hF : Scanned W V K F S.chain) (ho : S.ledger.outputs.find nf = some o) :
    OwnedNullifier W V K nf := by
  have hrel := h.outputs nf
  rw [ho] at hrel
  generalize hf : F.outputs.find nf = f at hrel
  cases hrel with
  | chain o' mark _ => exact hF.owned hf
  | pool txid r mark _ hr hnf _ =>
    obtain ⟨tx, htx, hr⟩ := hr
    exact ⟨txid, r, ⟨tx, htx, _, hr⟩, hnf⟩

/-- The amount of a record is that of its nullifier. -/
theorem amount (hV : SoundView W V K) (h : Related W V K S F) (hF : Scanned W V K F S.chain)
    (ho : S.ledger.outputs.find nf = some o) : o.amount = ownedAmount W V K nf := by
  have hrel := h.outputs nf
  rw [ho] at hrel
  generalize hf : F.outputs.find nf = f at hrel
  cases hrel with
  | chain o' mark _ =>
    obtain ⟨d, -, tx, htx, r, hr, rfl, hrec⟩ := hF.created nf o' hf
    rw [o'.amount_withMark, ownedAmount_eq hV.collisionFree ⟨tx, htx, d.height, hr⟩]
    exact congrArg PqWalletOutput.amount hrec
  | pool txid r mark _ hr hnf _ =>
    obtain ⟨tx, htx, hr⟩ := hr
    rw [PqWalletOutput.amount_withMark, ← hnf, ownedAmount_eq hV.collisionFree ⟨tx, htx, _, hr⟩]
    rfl

theorem find_none (h : Related W V K S F) (hF : Scanned W V K F S.chain) (hown : ¬ OwnedNullifier W V K nf) :
    S.ledger.outputs.find nf = none := by
  cases ho : S.ledger.outputs.find nf with
  | none => rfl
  | some o => exact absurd (h.owned hF ho) hown

/-- What the chain has created is recorded. -/
theorem find_some (h : Related W V K S F) (ho : F.outputs.find nf = some o) :
    ∃ mark, S.ledger.outputs.find nf = some (o.withMark mark) ∧
      ∀ A ∈ mark, o.spent = false ∧ SpendsNullifier W V A nf ∧ Touching W V K S A := by
  have hrel := h.outputs nf
  rw [ho] at hrel
  generalize hl : S.ledger.outputs.find nf = l at hrel
  cases hrel with
  | chain _ mark hmark => exact ⟨mark, rfl, hmark⟩

/-- A row that the chain does not have is a pending one. -/
theorem row_pool (h : Related W V K S F) {txid : Hash} (hF : F.history.find txid = none) {t : PqWalletTransaction}
    (ht : S.ledger.history.find txid = some t) :
    ∃ tx timestamp, V.tx txid = some tx ∧ PoolTx V S txid ∧
      (debits W V K tx > 0 ∨ credits W K tx unconfirmedHeight > 0) ∧
      t = newRow tx txid unconfirmedHeight timestamp (debits W V K tx) (credits W K tx unconfirmedHeight) := by
  have hrel := h.rows txid
  rw [ht, hF] at hrel
  cases hrel with
  | pool tx timestamp htx hpool hpos => exact ⟨tx, timestamp, htx, hpool, hpos, rfl⟩

end Related

/-! ### Sums -/

/-- Sums that do not wrap are zero only when everything in them is. -/
theorem worthless_of_zero (hV : SoundView W V K) {A : Hash} {tx : TransactionPrefix} (htx : V.tx A = some tx)
    (hd : debits W V K tx = 0) (hc : credits W K tx unconfirmedHeight = 0) : Worthless W V K A := by
  intro tx' htx'
  obtain rfl : tx = tx' := some.inj (htx.symm.trans htx')
  have hdlt := hV.debits_lt htx
  rw [← Finset.sum_map_toList, ← Function.comp_def, ← List.map_map] at hdlt
  have hdz := toNat_sum hdlt
  rw [Finset.sum_map_toList, ← debits, hd, List.map_map, Finset.sum_map_toList] at hdz
  have hclt := hV.credits_lt htx unconfirmedHeight
  rw [← Function.comp_def, ← List.map_map] at hclt
  have hcz := toNat_sum hclt
  rw [← credits, hc, List.map_map] at hcz
  constructor
  · intro nf hnf
    have := (Finset.sum_eq_zero_iff.mp hdz.symm) nf (List.mem_toFinset.mpr hnf)
    exact UInt64.toNat_inj.mp this
  · intro r hr
    have := List.sum_eq_zero_iff_forall_eq_nat.mp hcz.symm r.amount.toNat (List.mem_map.mpr ⟨r, hr, rfl⟩)
    exact UInt64.toNat_inj.mp this

variable {k : UInt32}

/-- The first loop counts all that the transaction spends. -/
theorem debitedBy_eq {L : Ledger} {tx : TransactionPrefix} {txid : Hash}
    (howned : ∀ nf ∈ spentNullifiers W tx, OwnedNullifier W V K nf →
      ∃ o, L.outputs.find nf = some o ∧ o.debit txid k = ownedAmount W V K nf)
    (hnot : ∀ nf, ¬ OwnedNullifier W V K nf → L.outputs.find nf = none) :
    debitedBy W L tx txid k = debits W V K tx := by
  refine Finset.sum_congr rfl fun nf hnf => ?_
  by_cases hown : OwnedNullifier W V K nf
  · obtain ⟨o, ho, hdebit⟩ := howned nf (List.mem_toFinset.mp hnf) hown
    rw [ho, ← hdebit]
    rfl
  · rw [hnot nf hown, ownedAmount_of_not hown]
    rfl

/-- The second loop counts all that it pays: what is recorded already is worth nothing. -/
theorem creditedBy_eq {L : Ledger} {tx : TransactionPrefix} {txid : Hash}
    (h : ∀ r ∈ ownReceipts W K tx k, L.outputs.find (r.nullifier W txid) ≠ none → r.amount = 0) :
    creditedBy W K L tx txid k = credits W K tx k := by
  refine congrArg List.sum (map_congr_left fun r hr => ?_)
  split
  · rfl
  · rename_i hne
    exact (h r hr hne).symm

theorem ownReceipts_of_not_coinbase {tx : TransactionPrefix} (htx : tx.txType ≠ txCoinbase) (k k' : UInt32) :
    ownReceipts W K tx k = ownReceipts W K tx k' :=
  receipts_of_not_coinbase htx k k'

/-- What a pool transaction without a row has recorded is worth nothing. -/
theorem Touching.worthless {A : Hash} (h : Touching W V K S A) (hrow : S.ledger.history.find A = none) :
    Worthless W V K A := by
  rcases h.row with ⟨t, ht, -⟩ | hw
  · rw [mem_def, hrow] at ht
    cases ht
  · exact hw

theorem Related.receipt_pool (hV : SoundView W V K) (h : Related W V K S F) {A : Hash} {r : Receipt}
    (hr : Recognised W V K A r) (hF : F.outputs.find (r.nullifier W A) = none)
    (hL : S.ledger.outputs.find (r.nullifier W A) ≠ none) :
    ∃ mark, S.ledger.outputs.find (r.nullifier W A) = some ((r.record W A unconfirmedHeight).withMark mark) ∧
      Touching W V K S A ∧ (∃ tx ∈ V.tx A, r ∈ ownReceipts W K tx unconfirmedHeight) ∧
      ∀ B ∈ mark, SpendsNullifier W V B (r.nullifier W A) ∧ Touching W V K S B := by
  have hrel := h.outputs (r.nullifier W A)
  rw [hF] at hrel
  generalize hl : S.ledger.outputs.find (r.nullifier W A) = l at hrel hL
  cases hrel with
  | absent => exact absurd rfl hL
  | pool txid r' mark htouch hr' hnf hmark =>
    obtain ⟨tx', htx', hmem⟩ := hr'
    obtain ⟨rfl, rfl⟩ := Recognised.unique hV.collisionFree ⟨tx', htx', _, hmem⟩ hr hnf
    exact ⟨mark, rfl, htouch, ⟨tx', htx', hmem⟩, hmark⟩

/-! ### Dropped from the pool -/

theorem Ledger.row_removeUnconfirmed (L : Ledger) (A t : Hash) :
    (L.removeUnconfirmedTransaction A).history.find t =
      if t = A then (L.history.find t).filter (fun row => decide (row.height ≠ unconfirmedHeight))
      else L.history.find t := by
  unfold Ledger.removeUnconfirmedTransaction
  dsimp only
  by_cases e : t = A
  · subst e
    rw [if_pos rfl]
    cases hrow : L.history.find t with
    | none => simp [hrow]
    | some row =>
      by_cases hu : row.height = unconfirmedHeight
      · simp [hu, MultiIndex.find_erase, Option.filter]
      · simp [hu, hrow, Option.filter]
  · rw [if_neg e]
    split
    · split
      · rw [MultiIndex.find_erase, if_neg e]
      · rfl
    · rfl

/-- A pool transaction goes on touching the ledger until it is dropped or confirmed. -/
theorem Touching.mono {S' : Conv} {B : Hash} (h : Touching W V K S B) (hpending : B ∈ S'.pending)
    (hout : ∀ d ∈ S'.chain, d.txid ≠ B)
    (hrow : ∀ t ∈ S.ledger.history.find B, t.height = unconfirmedHeight → S'.ledger.history.find B = some t) :
    Touching W V K S' B := by
  refine ⟨⟨hpending, hout, h.transfer⟩, ?_⟩
  rcases h.row with ⟨t, ht, hu⟩ | hw
  · exact .inl ⟨t, hrow t ht hu, hu⟩
  · exact .inr hw

variable {o : PqWalletOutput}

/-- Removing the effects of `A` takes its mark from a record and leaves any other. -/
theorem removeUnconfirmed_withMark {A : Hash} {mark : Option Hash}
    (hheight : ¬ (o.height = unconfirmedHeight ∧ o.txid = A))
    (hspent : o.spent = true → o.spentHeight ≠ unconfirmedHeight) (hunspent : ∀ B ∈ mark, o.unspend = o) :
    (o.withMark mark).removeUnconfirmed A = some (o.withMark (mark.filter fun B => decide (B ≠ A))) := by
  cases mark with
  | none =>
    have hno : ¬ (o.spent = true ∧ o.spentHeight = unconfirmedHeight ∧ o.spentTxid = A) := fun hs => hspent hs.1 hs.2.1
    simp [PqWalletOutput.withMark, PqWalletOutput.removeUnconfirmed, hheight, hno]
  | some B =>
    have hheight : ¬ ((o.withMark (some B)).height = unconfirmedHeight ∧ (o.withMark (some B)).txid = A) := hheight
    by_cases e : B = A
    · subst e
      have hun := hunspent B rfl
      have hback : (o.withMark (some B)).unspend = o := by
        rw [← hun]
        rfl
      have hfilter : (some B).filter (fun C => decide (C ≠ B)) = none := by simp
      rw [hfilter, PqWalletOutput.removeUnconfirmed, if_neg hheight, if_pos ⟨rfl, rfl, rfl⟩, hback]
      rfl
    · have hfilter : (some B).filter (fun C => decide (C ≠ A)) = some B := by simp [e]
      rw [hfilter, PqWalletOutput.removeUnconfirmed, if_neg hheight, if_neg fun hs => e hs.2.2]

theorem Scanned.settled_find {chain : List ChainEntry} (hF : Scanned W V K F chain) {nf : Hash}
    (ho : F.outputs.find nf = some o) : o.Settled unconfirmedHeight.toNat :=
  hF.settled.outputs o (MultiIndex.find_eq_some.mp ho).1

theorem ne_unconfirmed (h : k.toNat < unconfirmedHeight.toNat) : k ≠ unconfirmedHeight := by
  intro e
  rw [e] at h
  exact absurd h (Nat.lt_irrefl _)

theorem Related.drop (h : Related W V K S F) (hF : Scanned W V K F S.chain) (A : Hash) :
    Related W V K ⟨S.ledger.removeUnconfirmedTransaction A, S.pending.erase A, S.chain⟩ F := by
  have htouch : ∀ B, Touching W V K S B → B ≠ A →
      Touching W V K ⟨S.ledger.removeUnconfirmedTransaction A, S.pending.erase A, S.chain⟩ B := by
    intro B hB hne
    refine hB.mono (Finset.mem_erase.mpr ⟨hne, hB.pending⟩) hB.outside fun t ht _ => ?_
    rw [Ledger.row_removeUnconfirmed, if_neg hne]
    exact ht
  have hmarks : ∀ {mark : Option Hash} {B : Hash}, B ∈ mark.filter (fun B => decide (B ≠ A)) → B ∈ mark ∧ B ≠ A := by
    intro mark B hB
    simpa [mem_def, filter_eq_some_iff] using hB
  refine ⟨h.keys, fun nf => ?_, fun t => ?_⟩
  · have hrel := h.outputs nf
    rw [Ledger.find_removeUnconfirmed]
    generalize hl : S.ledger.outputs.find nf = l at hrel
    generalize hf : F.outputs.find nf = f at hrel
    cases hrel with
    | absent => exact .absent
    | chain o mark hmark =>
      have hset := hF.settled_find hf
      rw [bind_some, removeUnconfirmed_withMark (fun hu => ne_unconfirmed hset.height hu.1)
        (fun hs => ne_unconfirmed (hset.spent hs)) (fun B hB => hset.unspend_eq (hmark B hB).1)]
      refine .chain o _ fun B hB => ?_
      obtain ⟨hB, hne⟩ := hmarks hB
      exact ⟨(hmark B hB).1, (hmark B hB).2.1, htouch B (hmark B hB).2.2 hne⟩
    | pool txid r mark hpool hr hnf hmark =>
      rw [bind_some]
      by_cases e : txid = A
      · have hgone : ((r.record W txid unconfirmedHeight).withMark mark).removeUnconfirmed A = none := by
          rw [PqWalletOutput.removeUnconfirmed, if_pos]
          cases mark <;> exact ⟨rfl, e⟩
        rw [hgone]
        exact .absent
      · rw [removeUnconfirmed_withMark (fun hu => e hu.2) (fun hs => by cases hs) (fun _ _ => rfl)]
        refine .pool txid r _ (htouch txid hpool e) hr hnf fun B hB => ?_
        obtain ⟨hB, hne⟩ := hmarks hB
        exact ⟨(hmark B hB).1, htouch B (hmark B hB).2 hne⟩
  · have hrel := h.rows t
    rw [Ledger.row_removeUnconfirmed]
    generalize hl : S.ledger.history.find t = l at hrel
    generalize hf : F.history.find t = f at hrel
    by_cases e : t = A
    · rw [if_pos e]
      cases hrel with
      | same =>
        -- a row of the chain is not at the pool's height
        have hkeep : l.filter (fun row => decide (row.height ≠ unconfirmedHeight)) = l := by
          cases l with
          | none => rfl
          | some row =>
            have hrow := hF.settled.history row (MultiIndex.find_eq_some.mp hf).1
            simp [ne_unconfirmed hrow]
        rw [hkeep]
        exact .same _
      | pool tx timestamp htx hpool hpos =>
        have hgone : (some (newRow tx t unconfirmedHeight timestamp (debits W V K tx)
            (credits W K tx unconfirmedHeight))).filter (fun row => decide (row.height ≠ unconfirmedHeight)) = none := by
          simp [newRow]
        rw [hgone]
        exact .same none
    · rw [if_neg e]
      cases hrel with
      | same => exact .same _
      | pool tx timestamp htx hpool hpos =>
        exact .pool tx timestamp htx ⟨Finset.mem_erase.mpr ⟨e, hpool.pending⟩, hpool.outside, hpool.transfer⟩ hpos

/-! ### Rolled back -/

theorem not_orphaned_unconfirmed (k : UInt32) : ¬ Orphaned k unconfirmedHeight := fun h => h.2 rfl

/-- Marks and records of the pool are not touched by a rollback. -/
theorem rollback_withMark {mark : Option Hash} (hmark : ∀ B ∈ mark, o.spent = false) (k : UInt32) :
    (o.withMark mark).rollback k = (o.rollback k).map fun o' => o'.withMark mark := by
  cases mark with
  | none => exact (Option.map_id' (x := o.rollback k)).symm
  | some B =>
    have hs : o.spent = false := hmark B rfl
    by_cases hdrop : Orphaned k o.height
    · simp [PqWalletOutput.rollback, PqWalletOutput.withMark, hdrop]
    · simp [PqWalletOutput.rollback, PqWalletOutput.withMark, hdrop, hs, not_orphaned_unconfirmed]

theorem Ledger.row_rollback (L : Ledger) (k : UInt32) (t : Hash) :
    (L.rollbackToHeight k).history.find t = (L.history.find t).bind (PqWalletTransaction.rollback k) :=
  L.history.find_filterMap (fun e => by rw [PqWalletTransaction.rollback_eq e]) t

/-- A detach and a drop may come in either order. -/
theorem rollback_drop_comm (L : Ledger) (k : UInt32) (A : Hash) :
    let L₁ := (L.rollbackToHeight k).removeUnconfirmedTransaction A
    let L₂ := (L.removeUnconfirmedTransaction A).rollbackToHeight k
    (∀ nf, L₁.outputs.find nf = L₂.outputs.find nf) ∧ ∀ t, L₁.history.find t = L₂.history.find t := by
  refine ⟨fun nf => ?_, fun t => ?_⟩
  · rw [Ledger.find_removeUnconfirmed, Ledger.find_rollback, Ledger.find_rollback, Ledger.find_removeUnconfirmed,
      bind_assoc, bind_assoc]
    refine bind_congr fun o _ => ?_
    by_cases hgone : Orphaned k o.height <;> by_cases hpool : o.height = unconfirmedHeight ∧ o.txid = A <;>
      by_cases hspent : o.spent <;> by_cases hback : Orphaned k o.spentHeight <;>
      by_cases hmark : o.spentHeight = unconfirmedHeight ∧ o.spentTxid = A <;>
      simp [PqWalletOutput.removeUnconfirmed, PqWalletOutput.rollback, PqWalletOutput.unspend, hgone, hpool, hspent,
        hback, hmark, not_orphaned_unconfirmed]
  · rw [Ledger.row_removeUnconfirmed, Ledger.row_rollback, Ledger.row_rollback, Ledger.row_removeUnconfirmed]
    split
    · cases L.history.find t with
      | none => rfl
      | some row =>
        by_cases hgone : Orphaned k row.height <;> by_cases hpool : row.height = unconfirmedHeight <;>
          simp [PqWalletTransaction.rollback, Option.filter, hgone, hpool, not_orphaned_unconfirmed]
    · rfl

theorem Related.rollback (h : Related W V K S F) (k : UInt32) :
    Related W V K ⟨S.ledger.rollbackToHeight k, S.pending, S.chain.filter fun e => decide (e.height < k)⟩
      (F.rollbackToHeight k) := by
  have hout : ∀ B, (∀ d ∈ S.chain, d.txid ≠ B) → ∀ d ∈ S.chain.filter (fun e => decide (e.height < k)), d.txid ≠ B :=
    fun B hB d hd => hB d (mem_of_mem_filter hd)
  have hrow : ∀ t : PqWalletTransaction, t.height = unconfirmedHeight → t.rollback k = some t := by
    intro t ht
    rw [PqWalletTransaction.rollback, if_neg]
    rw [ht]
    exact not_orphaned_unconfirmed k
  have htouch : ∀ B, Touching W V K S B →
      Touching W V K ⟨S.ledger.rollbackToHeight k, S.pending, S.chain.filter fun e => decide (e.height < k)⟩ B := by
    intro B hB
    refine hB.mono hB.pending (hout B hB.outside) fun t ht hu => ?_
    rw [Ledger.row_rollback, mem_def.mp ht, bind_some, hrow t hu]
  refine ⟨h.keys, fun nf => ?_, fun t => ?_⟩
  · have hrel := h.outputs nf
    rw [Ledger.find_rollback, Ledger.find_rollback]
    generalize hl : S.ledger.outputs.find nf = l at hrel
    generalize hf : F.outputs.find nf = f at hrel
    cases hrel with
    | absent => exact .absent
    | chain o mark hmark =>
      rw [bind_some, bind_some, rollback_withMark fun B hB => (hmark B hB).1]
      unfold PqWalletOutput.rollback
      split
      · exact .absent
      · refine .chain _ mark fun B hB => ?_
        obtain ⟨hs, hspends, hB⟩ := hmark B hB
        refine ⟨?_, hspends, htouch B hB⟩
        rw [if_neg]
        · exact hs
        · rw [hs]
          exact fun h => by cases h.1
    | pool txid r mark hpool hr hnf hmark =>
      have hrecord : (r.record W txid unconfirmedHeight).rollback k = some (r.record W txid unconfirmedHeight) := by
        have hseen : ¬ Orphaned k (r.record W txid unconfirmedHeight).height := not_orphaned_unconfirmed k
        rw [PqWalletOutput.rollback, if_neg hseen, if_neg]
        exact fun h => by cases h.1
      rw [bind_some, rollback_withMark (fun _ _ => rfl), hrecord]
      exact .pool txid r mark (htouch txid hpool) hr hnf fun B hB => ⟨(hmark B hB).1, htouch B (hmark B hB).2⟩
  · have hrel := h.rows t
    rw [Ledger.row_rollback, Ledger.row_rollback]
    generalize hl : S.ledger.history.find t = l at hrel
    generalize hf : F.history.find t = f at hrel
    cases hrel with
    | same => exact .same _
    | pool tx timestamp htx hpool hpos =>
      rw [bind_some, hrow _ rfl]
      exact .pool tx timestamp htx ⟨hpool.pending, hout t hpool.outside, hpool.transfer⟩ hpos

/-! ### Confirmed -/

section
variable {e : ChainEntry} {tx : TransactionPrefix}

variable (hV : SoundView W V K) (h : Related W V K S F) (hF : Scanned W V K F S.chain)
  (hnext : ValidNext W V K S.chain e) (htx : V.tx e.txid = some tx)
include hnext

/-- What the next transaction of the chain spends is not waiting in the pool: its
creator is in the chain. -/
theorem ValidNext.found (hF : Scanned W V K F S.chain) (htx : V.tx e.txid = some tx)
    {nf : Hash} (hnf : nf ∈ spentNullifiers W tx) (hown : OwnedNullifier W V K nf) : F.outputs.find nf ≠ none := by
  obtain ⟨o, ho, -⟩ := hF.find_spends hnext htx hnf hown
  rw [ho]
  exact fun hno => by cases hno

include h hF htx

/-- The record under a nullifier that the confirmed transaction does not pay. -/
theorem Related.confirm_other {S' : Conv} (htouch : ∀ B, Touching W V K S B → B ≠ e.txid → Touching W V K S' B)
    {nf : Hash} (hnot : ∀ r ∈ ownReceipts W K tx e.height, r.nullifier W e.txid ≠ nf) :
    OutRel W V K S' nf ((S.ledger.outputs.find nf).map (PqWalletOutput.spentBy W tx e.txid e.height nf))
      ((F.outputs.find nf).map (PqWalletOutput.spentBy W tx e.txid e.height nf)) := by
  have hrel := h.outputs nf
  have hothers : nf ∉ spentNullifiers W tx → ∀ B, SpendsNullifier W V B nf → B ≠ e.txid := by
    intro hnf B hB heq
    obtain ⟨tx', htx', hmem⟩ := hB
    rw [heq, mem_def, htx, some.injEq] at htx'
    exact hnf (htx' ▸ hmem)
  generalize hl : S.ledger.outputs.find nf = l at hrel
  generalize hf : F.outputs.find nf = f at hrel
  cases hrel with
  | absent => exact .absent
  | chain o mark hmark =>
    rw [map_some, map_some]
    unfold PqWalletOutput.spentBy
    by_cases hnf : nf ∈ spentNullifiers W tx
    · -- the mark of a pool transaction gives way to the confirmed spend
      obtain ⟨o', ho', hs⟩ := hF.find_spends hnext htx hnf (hF.owned hf)
      obtain rfl : o' = o := some.inj (ho'.symm.trans hf)
      have hboth : (o'.withMark mark).spendBy e.txid e.height = o'.spendBy e.txid e.height := by
        have hp : Promotes unconfirmedHeight e.height := ⟨rfl, hnext.height⟩
        cases mark <;> simp [PqWalletOutput.withMark, PqWalletOutput.spendBy, hs, hp]
      rw [if_pos hnf, if_pos hnf, hboth]
      exact .chain _ none fun B hB => by cases hB
    · rw [if_neg hnf, if_neg hnf]
      refine .chain o mark fun B hB => ?_
      obtain ⟨hs, hspends, hB⟩ := hmark B hB
      exact ⟨hs, hspends, htouch B hB (hothers hnf B hspends)⟩
  | pool txid r mark hpool hr hrnf hmark =>
    obtain ⟨tx', htx', hmem⟩ := hr
    have hne : txid ≠ e.txid := by
      intro heq
      subst heq
      obtain rfl : tx = tx' := some.inj (htx.symm.trans htx')
      rw [ownReceipts_of_not_coinbase (hpool.transfer tx htx) _ e.height] at hmem
      exact hnot r hmem hrnf
    have hnf : nf ∉ spentNullifiers W tx := fun hnf =>
      hnext.found hF htx hnf ⟨txid, r, ⟨tx', htx', _, hmem⟩, hrnf⟩ hf
    rw [map_some, map_none, PqWalletOutput.spentBy, if_neg hnf]
    refine .pool txid r mark (htouch txid hpool hne) ⟨tx', htx', hmem⟩ hrnf fun B hB => ?_
    exact ⟨(hmark B hB).1, htouch B (hmark B hB).2 (hothers hnf B (hmark B hB).1)⟩

include hV

/-- The record of an output that the confirmed transaction pays. -/
theorem Related.confirm_receipt {S' : Conv} (htouch : ∀ B, Touching W V K S B → B ≠ e.txid → Touching W V K S' B)
    {r : Receipt} (hr : r ∈ ownReceipts W K tx e.height) :
    OutRel W V K S' (r.nullifier W e.txid)
      (some (r.applyTo W e.txid e.height ((S.ledger.outputs.find (r.nullifier W e.txid)).map
        (PqWalletOutput.spentBy W tx e.txid e.height (r.nullifier W e.txid)))))
      (some (r.record W e.txid e.height)) := by
  have hrec : Recognised W V K e.txid r := ⟨tx, htx, e.height, hr⟩
  have hnone := hF.find_outside hV.collisionFree hrec hnext.once
  by_cases hl : S.ledger.outputs.find (r.nullifier W e.txid) = none
  · rw [hl]
    exact .chain _ none fun B hB => by cases hB
  · obtain ⟨mark, hfind, -, -, hmark⟩ := h.receipt_pool hV hrec hnone hl
    have hnf : r.nullifier W e.txid ∉ spentNullifiers W tx := fun hnf =>
      hnext.found hF htx hnf ⟨e.txid, r, hrec, rfl⟩ hnone
    have happly : r.applyTo W e.txid e.height (some ((r.record W e.txid unconfirmedHeight).withMark mark)) =
        (r.record W e.txid e.height).withMark mark := by
      have hp : Promotes unconfirmedHeight e.height := ⟨rfl, hnext.height⟩
      rw [Receipt.applyTo, PqWalletOutput.height_withMark, Receipt.record, if_pos hp]
      cases mark <;> rfl
    rw [hfind, map_some, PqWalletOutput.spentBy, if_neg hnf, happly]
    refine .chain _ mark fun B hB => ⟨rfl, (hmark B hB).1, htouch B (hmark B hB).2 fun heq => ?_⟩
    obtain ⟨tx', htx', hmem⟩ := (hmark B hB).1
    rw [heq, mem_def, htx, some.injEq] at htx'
    exact hnf (htx' ▸ hmem)

/-- The sums of the confirmed transaction, in the ledger of the chain and in one that
has no row for it. -/
theorem Related.confirm_sums (hrow : S.ledger.history.find e.txid = none) :
    debitedBy W S.ledger tx e.txid e.height = debits W V K tx ∧
      creditedBy W K S.ledger tx e.txid e.height = credits W K tx e.height := by
  constructor
  · refine debitedBy_eq (fun nf hnf hown => ?_) fun nf => h.find_none hF
    obtain ⟨o, ho, hs⟩ := hF.find_spends hnext htx hnf hown
    obtain ⟨mark, hl, hmark⟩ := h.find_some ho
    have hamount := h.amount hV hF hl
    rw [PqWalletOutput.amount_withMark] at hamount
    refine ⟨_, hl, ?_⟩
    cases mark with
    | none => simp [PqWalletOutput.withMark, PqWalletOutput.debit, hs, hamount]
    | some B =>
      have hp : Promotes unconfirmedHeight e.height := ⟨rfl, hnext.height⟩
      by_cases heq : B = e.txid
      · -- seen before without a row: nothing to count
        have hzero := ((hmark B rfl).2.2.worthless (by rw [heq, hrow]) tx (by rw [heq]; exact htx)).1 nf hnf
        simp [PqWalletOutput.withMark, PqWalletOutput.debit, heq, hzero]
      · simp [PqWalletOutput.withMark, PqWalletOutput.debit, hp, heq, hamount]
  · refine creditedBy_eq fun r hr hne => ?_
    have hrec : Recognised W V K e.txid r := ⟨tx, htx, e.height, hr⟩
    obtain ⟨-, -, htouch, ⟨tx', htx', hmem⟩, -⟩ :=
      h.receipt_pool hV hrec (hF.find_outside hV.collisionFree hrec hnext.once) hne
    exact (htouch.worthless hrow tx' htx').2 r hmem

omit h in
theorem Scanned.confirm_sums :
    debitedBy W F tx e.txid e.height = debits W V K tx ∧
      creditedBy W K F tx e.txid e.height = credits W K tx e.height := by
  constructor
  · refine debitedBy_eq (fun nf hnf hown => ?_) fun nf hown => ?_
    · obtain ⟨o, ho, hs⟩ := hF.find_spends hnext htx hnf hown
      obtain ⟨d, -, tx', htx', r, hr, rfl, hrec⟩ := hF.created nf o ho
      have hamount : o.amount = r.amount := congrArg PqWalletOutput.amount hrec
      refine ⟨o, ho, ?_⟩
      rw [ownedAmount_eq hV.collisionFree ⟨tx', htx', d.height, hr⟩, ← hamount]
      simp [PqWalletOutput.debit, hs]
    · cases ho : F.outputs.find nf with
      | none => rfl
      | some o => exact absurd (hF.owned ho) hown
  · exact creditedBy_eq fun r hr hne =>
      absurd (hF.find_outside hV.collisionFree ⟨tx, htx, e.height, hr⟩ hnext.once) hne

theorem Related.confirm :
    Related W V K ⟨(S.ledger.processTransaction W tx e.txid e.height e.timestamp).1, S.pending.erase e.txid,
      S.chain ++ [e]⟩ (F.confirmEntry W V e) := by
  have hv := hV.version htx
  have hentry : F.confirmEntry W V e = (F.processTransaction W tx e.txid e.height e.timestamp).1 := by
    rw [Ledger.confirmEntry, htx]
    rfl
  have hout : ∀ B, (∀ d ∈ S.chain, d.txid ≠ B) → B ≠ e.txid → ∀ d ∈ S.chain ++ [e], d.txid ≠ B := by
    intro B hB hne d hd
    rcases mem_append.mp hd with hd | hd
    · exact hB d hd
    · rw [mem_singleton.mp hd]
      exact Ne.symm hne
  have hhistory : (S.ledger.processTransaction W tx e.txid e.height e.timestamp).1.history =
      (updateHistory S.ledger.history tx e.txid e.height e.timestamp (debitedBy W S.ledger tx e.txid e.height)
        (creditedBy W K S.ledger tx e.txid e.height)).1 :=
    history_process hV.collisionFree htx hv h.keys
  have htouch : ∀ B, Touching W V K S B → B ≠ e.txid →
      Touching W V K ⟨(S.ledger.processTransaction W tx e.txid e.height e.timestamp).1, S.pending.erase e.txid,
        S.chain ++ [e]⟩ B := by
    intro B hB hne
    refine hB.mono (Finset.mem_erase.mpr ⟨hne, hB.pending⟩) (hout B hB.outside hne) fun t ht _ => ?_
    dsimp only
    rw [hhistory, find_updateHistory, if_neg hne]
    exact ht
  refine ⟨?_, fun nf => ?_, fun t => ?_⟩
  · rw [Ledger.keys_processTransaction]
    exact h.keys
  · rw [hentry]
    by_cases hr : ∃ r ∈ ownReceipts W K tx e.height, r.nullifier W e.txid = nf
    · obtain ⟨r, hr, rfl⟩ := hr
      have hnone := hF.find_outside hV.collisionFree ⟨tx, htx, e.height, hr⟩ hnext.once
      rw [find_process_receipt hV.collisionFree htx hv h.keys hr, find_process_receipt hV.collisionFree htx hv hF.keys hr,
        hnone]
      exact h.confirm_receipt hV hF hnext htx htouch hr
    · have hnot : ∀ r ∈ ownReceipts W K tx e.height, r.nullifier W e.txid ≠ nf := fun r hrm heq => hr ⟨r, hrm, heq⟩
      rw [find_process_other hv h.keys hnot, find_process_other hv hF.keys hnot]
      exact h.confirm_other hF hnext htx htouch hnot
  · rw [hentry, history_process hV.collisionFree htx hv hF.keys, hhistory, find_updateHistory, find_updateHistory]
    by_cases heq : t = e.txid
    · subst heq
      have hnone : F.history.find e.txid = none := by
        by_contra hne
        obtain ⟨d, hd, hdt⟩ := hF.rows _ hne
        exact hnext.once d hd hdt
      obtain ⟨hdF, hcF⟩ := hF.confirm_sums hV hnext htx
      rw [if_pos rfl, if_pos rfl, hnone, hdF, hcF]
      cases hl : S.ledger.history.find e.txid with
      | none =>
        obtain ⟨hd, hc⟩ := h.confirm_sums hV hF hnext htx hl
        rw [hd, hc]
        exact .same _
      | some row =>
        -- the pending row already has the sums of the chain's
        obtain ⟨tx', timestamp, htx', hpool, hpos, rfl⟩ := h.row_pool hnone hl
        obtain rfl : tx = tx' := some.inj (htx.symm.trans htx')
        have hcredits : credits W K tx unconfirmedHeight = credits W K tx e.height := by
          rw [credits, ownReceipts_of_not_coinbase (hpool.transfer tx htx) _ e.height, credits]
        have hp : Promotes unconfirmedHeight e.height := ⟨rfl, hnext.height⟩
        rw [hcredits] at hpos ⊢
        have hsame : rowAfter tx e.txid e.height e.timestamp
            (debitedBy W S.ledger tx e.txid e.height) (creditedBy W K S.ledger tx e.txid e.height)
            (some (newRow tx e.txid unconfirmedHeight timestamp (debits W V K tx) (credits W K tx e.height))) =
            rowAfter tx e.txid e.height e.timestamp (debits W V K tx) (credits W K tx e.height) none := by
          simp [rowAfter, newRow, hp, hpos]
        rw [hsame]
        exact .same _
    · rw [if_neg heq, if_neg heq]
      have hrel := h.rows t
      generalize hl : S.ledger.history.find t = l at hrel
      generalize hf : F.history.find t = f at hrel
      cases hrel with
      | same => exact .same _
      | pool tx' timestamp htx' hpool hpos =>
        exact .pool tx' timestamp htx'
          ⟨Finset.mem_erase.mpr ⟨heq, hpool.pending⟩, hout t hpool.outside heq, hpool.transfer⟩ hpos

end

/-! ### Seen in the pool -/

section
variable {A : Hash} {tx : TransactionPrefix} {timestamp : UInt64}

theorem not_promotes_unconfirmed (seen : UInt32) : ¬ Promotes seen unconfirmedHeight := fun h => h.2 rfl

/-- A spend seen in the pool marks an unspent record and leaves a spent one. -/
theorem spendBy_unconfirmed (o : PqWalletOutput) (A : Hash) :
    o.spendBy A unconfirmedHeight = if o.spent then o else o.withMark (some A) := by
  cases hs : o.spent <;> simp [PqWalletOutput.spendBy, PqWalletOutput.withMark, hs, not_promotes_unconfirmed]

theorem PqWalletOutput.spent_withMark {o : PqWalletOutput} {mark : Option Hash} (h : (o.withMark mark).spent = false) :
    mark = none ∧ o.spent = false := by
  cases mark with
  | none => exact ⟨rfl, h⟩
  | some B => cases h

variable (h : Related W V K S F) (hF : Scanned W V K F S.chain) (htx : V.tx A = some tx)
include h hF htx

/-- A transaction of the chain has spent what it spends. -/
theorem Related.outside_of_unspent {nf : Hash} (hnf : nf ∈ spentNullifiers W tx) {o : PqWalletOutput}
    (ho : S.ledger.outputs.find nf = some o) (hs : o.spent = false) : ∀ d ∈ S.chain, d.txid ≠ A := by
  intro d hd heq
  have hspent : SpentIn W V S.chain nf := ⟨d, hd, tx, by rw [heq]; exact htx, hnf⟩
  obtain ⟨o', ho'⟩ := hF.found nf (hF.source nf hspent (h.owned hF ho))
  obtain ⟨mark, hl, -⟩ := h.find_some ho'
  obtain rfl : o = o'.withMark mark := some.inj (ho.symm.trans hl)
  have := (hF.spent nf o' ho').mpr hspent
  rw [(PqWalletOutput.spent_withMark hs).2] at this
  cases this

/-- A transaction of the chain has its receipts recorded. -/
theorem Related.outside_of_absent (hcoin : tx.txType ≠ txCoinbase) {r : Receipt}
    (hr : r ∈ ownReceipts W K tx unconfirmedHeight) (hnone : S.ledger.outputs.find (r.nullifier W A) = none) :
    ∀ d ∈ S.chain, d.txid ≠ A := by
  intro d hd heq
  rw [ownReceipts_of_not_coinbase hcoin _ d.height] at hr
  obtain ⟨o, ho⟩ := hF.found (r.nullifier W A) ⟨d, hd, tx, by rw [heq]; exact htx, r, hr, by rw [heq]⟩
  obtain ⟨mark, hl, -⟩ := h.find_some ho
  rw [hnone] at hl
  cases hl

/-- Only a transaction outside the chain adds to the sums. -/
theorem Related.outside_of_sums (hcoin : tx.txType ≠ txCoinbase)
    (hpos : debitedBy W S.ledger tx A unconfirmedHeight > 0 ∨ creditedBy W K S.ledger tx A unconfirmedHeight > 0) :
    ∀ d ∈ S.chain, d.txid ≠ A := by
  have hne : ∀ {x : UInt64}, x > 0 → x ≠ 0 := fun hx e => by
    rw [e] at hx
    exact absurd hx (by decide)
  rcases hpos with hpos | hpos
  · obtain ⟨nf, hnf, hterm⟩ := Finset.exists_ne_zero_of_sum_ne_zero (hne hpos)
    cases ho : S.ledger.outputs.find nf with
    | none =>
      rw [ho] at hterm
      exact absurd rfl hterm
    | some o =>
      refine h.outside_of_unspent hF htx (List.mem_toFinset.mp hnf) ho ?_
      rw [ho] at hterm
      cases hs : o.spent with
      | false => rfl
      | true => simp [PqWalletOutput.debit, hs, not_promotes_unconfirmed] at hterm
  · have hall : ¬ ∀ r ∈ ownReceipts W K tx unconfirmedHeight, S.ledger.outputs.find (r.nullifier W A) ≠ none := by
      intro hall
      refine hne hpos (sum_eq_zero fun x hx => ?_)
      obtain ⟨r, hr, rfl⟩ := List.mem_map.mp hx
      exact if_neg (hall r hr)
    push Not at hall
    obtain ⟨r, hr, hnone⟩ := hall
    exact h.outside_of_absent hF htx hcoin hr hnone

omit h hF htx

/-- The sums of a transaction at its first sight, when it finds all that it spends. -/
theorem Related.sight_sums (hV : SoundView W V K) (h : Related W V K S F) (hF : Scanned W V K F S.chain)
    (htx : V.tx A = some tx) (hout : ∀ d ∈ S.chain, d.txid ≠ A) (hrow : S.ledger.history.find A = none)
    (hclean : ∀ nf ∈ spentNullifiers W tx, OwnedNullifier W V K nf → ∃ o ∈ S.ledger.outputs.find nf, o.spent = false) :
    debitedBy W S.ledger tx A unconfirmedHeight = debits W V K tx ∧
      creditedBy W K S.ledger tx A unconfirmedHeight = credits W K tx unconfirmedHeight := by
  constructor
  · refine debitedBy_eq (fun nf hnf hown => ?_) fun nf => h.find_none hF
    obtain ⟨o, ho, hs⟩ := hclean nf hnf hown
    refine ⟨o, ho, ?_⟩
    rw [← h.amount hV hF ho]
    simp [PqWalletOutput.debit, hs]
  · refine creditedBy_eq fun r hr hne => ?_
    have hrec : Recognised W V K A r := ⟨tx, htx, unconfirmedHeight, hr⟩
    obtain ⟨-, -, htouch, ⟨tx', htx', hmem⟩, -⟩ :=
      h.receipt_pool hV hrec (hF.find_outside hV.collisionFree hrec hout) hne
    exact (htouch.worthless hrow tx' htx').2 r hmem

theorem rowAfter_unconfirmed (debited credited : UInt64) (t : PqWalletTransaction) :
    rowAfter tx A unconfirmedHeight timestamp debited credited (some t) = some t := by
  rw [rowAfter, if_neg (not_promotes_unconfirmed _)]

include h hF htx in
/-- Marks of the transaction on records that the ledger has. -/
theorem Related.sight_spends {S' : Conv} (htouch : ∀ B, Touching W V K S B → Touching W V K S' B)
    (hA : (∀ d ∈ S.chain, d.txid ≠ A) → Touching W V K S' A) (nf : Hash) :
    OutRel W V K S' nf ((S.ledger.outputs.find nf).map (PqWalletOutput.spentBy W tx A unconfirmedHeight nf))
      (F.outputs.find nf) := by
  have hrel := h.outputs nf
  have hfresh : ∀ o, S.ledger.outputs.find nf = some o → nf ∈ spentNullifiers W tx → o.spent = false →
      SpendsNullifier W V A nf ∧ Touching W V K S' A :=
    fun o ho hnf hs => ⟨⟨tx, htx, hnf⟩, hA (h.outside_of_unspent hF htx hnf ho hs)⟩
  generalize hl : S.ledger.outputs.find nf = l at hrel hfresh
  generalize hf : F.outputs.find nf = f at hrel
  cases hrel with
  | absent => exact .absent
  | chain o mark hmark =>
    rw [map_some, PqWalletOutput.spentBy, spendBy_unconfirmed]
    have hkeep : OutRel W V K S' nf (some (o.withMark mark)) (some o) :=
      .chain o mark fun B hB => ⟨(hmark B hB).1, (hmark B hB).2.1, htouch B (hmark B hB).2.2⟩
    by_cases hnf : nf ∈ spentNullifiers W tx
    · cases hs : (o.withMark mark).spent with
      | true => simpa [hnf, hs] using hkeep
      | false =>
        obtain ⟨rfl, ho⟩ := PqWalletOutput.spent_withMark hs
        rw [if_pos hnf]
        refine .chain o (some A) fun B hB => ?_
        obtain rfl := some.inj hB
        exact ⟨ho, hfresh _ rfl hnf hs⟩
    · rw [if_neg hnf]
      exact hkeep
  | pool txid r mark hpool hr hrnf hmark =>
    rw [map_some, PqWalletOutput.spentBy, spendBy_unconfirmed]
    have hkeep : OutRel W V K S' nf (some ((r.record W txid unconfirmedHeight).withMark mark)) none :=
      .pool txid r mark (htouch txid hpool) hr hrnf fun B hB => ⟨(hmark B hB).1, htouch B (hmark B hB).2⟩
    by_cases hnf : nf ∈ spentNullifiers W tx
    · cases hs : ((r.record W txid unconfirmedHeight).withMark mark).spent with
      | true => simpa [hnf, hs] using hkeep
      | false =>
        obtain ⟨rfl, ho⟩ := PqWalletOutput.spent_withMark hs
        rw [if_pos hnf]
        refine .pool txid r (some A) (htouch txid hpool) hr hrnf fun B hB => ?_
        obtain rfl := some.inj hB
        exact hfresh _ rfl hnf hs
    · rw [if_neg hnf]
      exact hkeep

theorem Related.sight (hV : SoundView W V K) (h : Related W V K S F) (hF : Scanned W V K F S.chain)
    (htx : V.tx A = some tx) (hcoin : tx.txType ≠ txCoinbase)
    (hclean : S.ledger.history.find A = none → ∀ nf ∈ spentNullifiers W tx, OwnedNullifier W V K nf →
      ∃ o ∈ S.ledger.outputs.find nf, o.spent = false) :
    Related W V K ⟨(S.ledger.processTransaction W tx A unconfirmedHeight timestamp).1, insert A S.pending, S.chain⟩ F := by
  have hv := hV.version htx
  have hhistory : ∀ t, (S.ledger.processTransaction W tx A unconfirmedHeight timestamp).1.history.find t =
      if t = A then rowAfter tx A unconfirmedHeight timestamp (debitedBy W S.ledger tx A unconfirmedHeight)
        (creditedBy W K S.ledger tx A unconfirmedHeight) (S.ledger.history.find t)
      else S.ledger.history.find t := fun t => by
    rw [history_process hV.collisionFree htx hv h.keys, find_updateHistory]
  have hkeep : ∀ t row, S.ledger.history.find t = some row →
      (S.ledger.processTransaction W tx A unconfirmedHeight timestamp).1.history.find t = some row := by
    intro t row hrow
    rw [hhistory, hrow, rowAfter_unconfirmed]
    split <;> rfl
  have hpool : ∀ B, PoolTx V S B → PoolTx V
      ⟨(S.ledger.processTransaction W tx A unconfirmedHeight timestamp).1, insert A S.pending, S.chain⟩ B :=
    fun B hB => ⟨Finset.mem_insert_of_mem hB.pending, hB.outside, hB.transfer⟩
  have hpoolA : (∀ d ∈ S.chain, d.txid ≠ A) → PoolTx V
      ⟨(S.ledger.processTransaction W tx A unconfirmedHeight timestamp).1, insert A S.pending, S.chain⟩ A := by
    refine fun hout => ⟨Finset.mem_insert_self _ _, hout, fun tx' htx' => ?_⟩
    obtain rfl : tx = tx' := some.inj (htx.symm.trans htx')
    exact hcoin
  have htouch : ∀ B, Touching W V K S B → Touching W V K
      ⟨(S.ledger.processTransaction W tx A unconfirmedHeight timestamp).1, insert A S.pending, S.chain⟩ B :=
    fun B hB => hB.mono (hpool B hB.toPoolTx).pending hB.outside fun t ht _ => hkeep B t ht
  -- a transaction outside the chain gets its row, unless it is worth nothing
  have hA : (∀ d ∈ S.chain, d.txid ≠ A) → Touching W V K
      ⟨(S.ledger.processTransaction W tx A unconfirmedHeight timestamp).1, insert A S.pending, S.chain⟩ A := by
    refine fun hout => ⟨hpoolA hout, ?_⟩
    have hnone : F.history.find A = none := by
      by_contra hne
      obtain ⟨d, hd, hdt⟩ := hF.rows _ hne
      exact hout d hd hdt
    cases hrow : S.ledger.history.find A with
    | some row =>
      obtain ⟨_, _, _, _, _, rfl⟩ := h.row_pool hnone hrow
      exact .inl ⟨_, hkeep A _ hrow, rfl⟩
    | none =>
      obtain ⟨hd, hc⟩ := h.sight_sums hV hF htx hout hrow (hclean hrow)
      by_cases hpos : debits W V K tx > 0 ∨ credits W K tx unconfirmedHeight > 0
      · refine .inl ⟨newRow tx A unconfirmedHeight timestamp (debits W V K tx) (credits W K tx unconfirmedHeight), ?_, rfl⟩
        rw [mem_def, hhistory, if_pos rfl, hrow, hd, hc, rowAfter, if_pos hpos]
      · have hzero : ∀ {x : UInt64}, ¬ x > 0 → x = 0 := fun hx => by
          have hle := UInt64.not_lt.mp hx
          exact UInt64.le_antisymm hle (by simp)
        exact .inr (worthless_of_zero hV htx (hzero fun hx => hpos (.inl hx)) (hzero fun hx => hpos (.inr hx)))
  refine ⟨?_, fun nf => ?_, fun t => ?_⟩
  · rw [Ledger.keys_processTransaction]
    exact h.keys
  · have hspends := h.sight_spends hF htx htouch hA nf
    by_cases hr : ∃ r ∈ ownReceipts W K tx unconfirmedHeight, r.nullifier W A = nf
    · obtain ⟨r, hr, rfl⟩ := hr
      rw [find_process_receipt hV.collisionFree htx hv h.keys hr]
      cases hl : S.ledger.outputs.find (r.nullifier W A) with
      | none =>
        have hout := h.outside_of_absent hF htx hcoin hr hl
        rw [hF.find_outside hV.collisionFree ⟨tx, htx, unconfirmedHeight, hr⟩ hout]
        exact .pool A r none (hA hout) ⟨tx, htx, hr⟩ rfl fun B hB => by cases hB
      | some o =>
        rw [hl] at hspends
        rw [map_some, Receipt.applyTo, if_neg (not_promotes_unconfirmed _)]
        exact hspends
    · rw [find_process_other hv h.keys fun r hrm heq => hr ⟨r, hrm, heq⟩]
      exact hspends
  · have hrel := h.rows t
    cases hl : S.ledger.history.find t with
    | some row =>
      rw [hkeep t row hl]
      rw [hl] at hrel
      generalize hf : F.history.find t = f at hrel
      cases hrel with
      | same => exact .same _
      | pool tx' timestamp' htx' hp hpos => exact .pool tx' timestamp' htx' (hpool t hp) hpos
    | none =>
      rw [hl] at hrel
      generalize hf : F.history.find t = f at hrel
      cases hrel
      rw [hhistory, hl]
      by_cases heq : t = A
      · subst heq
        rw [if_pos rfl, rowAfter]
        split
        · rename_i hpos
          have hout := h.outside_of_sums hF htx hcoin hpos
          obtain ⟨hd, hc⟩ := h.sight_sums hV hF htx hout hl (hclean hl)
          rw [hd, hc] at hpos ⊢
          exact .pool tx timestamp htx (hpoolA hout) hpos
        · exact .same none
      · rw [if_neg heq]
        exact .same none

end

/-! ## The ledger of the chain -/

/-- What holds along a run: the chain is valid and the ledger is related to its scan. -/
structure ConvInv (W : WalletPrimitives) (V : TxView) (K : LedgerKeys) (S : Conv) : Prop where
  chain : ValidChain W V K S.chain
  related : Related W V K S (scanChain W V K S.chain)

theorem ConvInv.init : ConvInv W V K ⟨Ledger.fresh K, ∅, []⟩ :=
  ⟨.nil, rfl, fun _ => .absent, fun _ => .same none⟩

theorem ConvInv.step (hV : SoundView W V K) (h : ConvInv W V K S) {ev : ConvEvent} {S' : Conv}
    (hstep : S.step W V ev = some S') (hvalid : ValidEvent W V K S ev) (hclean : CleanSight W V K S ev) :
    ConvInv W V K S' := by
  have hF := h.chain.scanned hV
  cases ev with
  | sight A timestamp =>
    obtain ⟨tx, htx, rfl⟩ := map_eq_some_iff.mp hstep
    exact ⟨h.chain, h.related.sight hV hF htx (hvalid tx htx) fun hrow => hclean hrow tx htx⟩
  | drop A =>
    obtain rfl := some.inj hstep
    exact ⟨h.chain, h.related.drop hF A⟩
  | confirm e =>
    obtain ⟨tx, htx, rfl⟩ := map_eq_some_iff.mp hstep
    refine ⟨.snoc h.chain hvalid, ?_⟩
    dsimp only
    rw [scanChain_snoc]
    exact h.related.confirm hV hF hvalid htx
  | rollback k =>
    obtain rfl := some.inj hstep
    obtain ⟨hchain, hcontent⟩ := h.chain.rollback k
    have hrel := h.related.rollback k
    have houtputs : ((scanChain W V K S.chain).rollbackToHeight k).content.outputs =
        (scanChain W V K (S.chain.filter fun e => decide (e.height < k))).content.outputs := by rw [hcontent]
    have hhistory : ((scanChain W V K S.chain).rollbackToHeight k).content.history =
        (scanChain W V K (S.chain.filter fun e => decide (e.height < k))).content.history := by rw [hcontent]
    refine ⟨hchain, hrel.keys, fun nf => ?_, fun t => ?_⟩
    · have := hrel.outputs nf
      rwa [show ((scanChain W V K S.chain).rollbackToHeight k).outputs = _ from houtputs] at this
    · have := hrel.rows t
      rwa [show ((scanChain W V K S.chain).rollbackToHeight k).history = _ from hhistory] at this

theorem convInv_reachable (hV : SoundView W V K)
    (hreach : ((convMachine W V K).lts fun S ev => ValidEvent W V K S ev ∧ CleanSight W V K S ev).Reachable S) :
    ConvInv W V K S := by
  refine (Machine.inductive_of_step (I := ConvInv W V K) ?_ ?_).reachable hreach
  · intro S hS
    cases hS
    exact .init
  · intro S ev S' h hg hstep
    exact h.step hV hstep hg.1 hg.2

/-- The same records, the same rows and the same balances. The cursor, which only the
spendable balance reads, is the consumer's. -/
structure Ledger.Agrees (L F : Ledger) : Prop where
  outputs : L.outputs.entries.Perm F.outputs.entries
  history : L.history.entries.Perm F.history.entries
  balance : L.balance = F.balance
  pendingBalance : L.pendingBalance = F.pendingBalance
  spendableBalance : ∀ c, (L.withCursor c).spendableBalance = (F.withCursor c).spendableBalance
  depositBalance : ∀ i, L.depositBalance i = F.depositBalance i
  depositPendingBalance : ∀ i, L.depositPendingBalance i = F.depositPendingBalance i
  unattributedBalance : L.unattributedBalance = F.unattributedBalance

theorem Ledger.sumOf_perm {L F : Ledger} (h : L.outputs.entries.Perm F.outputs.entries) (p : PqWalletOutput → Bool) :
    L.sumOf p = F.sumOf p :=
  ((h.filter p).map PqWalletOutput.amount).sum_eq

theorem Ledger.agrees_of_find {L F : Ledger} (houtputs : ∀ nf, L.outputs.find nf = F.outputs.find nf)
    (hrows : ∀ t, L.history.find t = F.history.find t) : L.Agrees F := by
  have hperm := MultiIndex.perm_of_find houtputs
  refine ⟨hperm, MultiIndex.perm_of_find hrows, sumOf_perm hperm _, sumOf_perm hperm _, fun c => sumOf_perm hperm _,
    fun i => ?_, fun i => sumOf_perm hperm _, sumOf_perm hperm _⟩
  unfold Ledger.depositBalance
  split
  · rfl
  · exact sumOf_perm hperm _

/-- Nothing pending, no difference. -/
theorem Related.agrees (h : Related W V K S F) (hpending : S.pending = ∅) : S.ledger.Agrees F := by
  have hno : ∀ A, ¬ PoolTx V S A := fun A hA => by
    have := hA.pending
    rw [hpending] at this
    cases this
  refine Ledger.agrees_of_find (fun nf => ?_) fun t => ?_
  · have hrel := h.outputs nf
    generalize S.ledger.outputs.find nf = l at hrel
    generalize F.outputs.find nf = f at hrel
    cases hrel with
    | absent => rfl
    | chain o mark hmark =>
      cases mark with
      | none => rfl
      | some A => exact absurd (hmark A rfl).2.2.toPoolTx (hno A)
    | pool txid r mark hpool => exact absurd hpool.toPoolTx (hno txid)
  · have hrel := h.rows t
    generalize S.ledger.history.find t = l at hrel
    generalize F.history.find t = f at hrel
    cases hrel with
    | same => rfl
    | pool tx timestamp htx hpool hpos => exact absurd hpool (hno t)

/-- In every run in which each first sight of a pool transaction finds the outputs of
the wallet that it spends recorded and unspent, a ledger with nothing pending agrees with
one that scanned the confirmed chain only. -/
theorem converges (hV : SoundView W V K)
    (hreach : ((convMachine W V K).lts fun S ev => ValidEvent W V K S ev ∧ CleanSight W V K S ev).Reachable S)
    (hpending : S.pending = ∅) : S.ledger.Agrees (scanChain W V K S.chain) :=
  (convInv_reachable hV hreach).related.agrees hpending

end

/-! ### Runs

A view without coinbases has finitely many nullifiers of the wallet, so the events of a
run can be checked. -/

section
variable {W : WalletPrimitives} {V : TxView} {K : LedgerKeys}

/-- The receipts of the transactions `ids`, with the transaction of each. -/
def viewReceipts (W : WalletPrimitives) (V : TxView) (K : LedgerKeys) (ids : List Hash) : List (Hash × Receipt) :=
  ids.flatMap fun txid => (V.tx txid).toList.flatMap fun tx => (ownReceipts W K tx 0).map fun r => (txid, r)

/-- `V` has the transactions `ids`, and none is a coinbase. -/
structure TxView.Within (V : TxView) (ids : List Hash) : Prop where
  mem : ∀ {txid tx}, V.tx txid = some tx → txid ∈ ids
  transfer : ∀ {txid tx}, V.tx txid = some tx → tx.txType ≠ txCoinbase

variable {ids : List Hash}

theorem TxView.Within.recognised (h : V.Within ids) {txid : Hash} {r : Receipt} (hr : Recognised W V K txid r) :
    (txid, r) ∈ viewReceipts W V K ids := by
  obtain ⟨tx, htx, k, hr⟩ := hr
  rw [ownReceipts_of_not_coinbase (h.transfer htx) k 0] at hr
  simp only [viewReceipts, mem_flatMap, List.mem_map, mem_toList]
  exact ⟨txid, h.mem htx, tx, htx, r, hr, rfl⟩

theorem TxView.Within.collisionFree (h : V.Within ids)
    (hnodup : ((viewReceipts W V K ids).map fun x => x.2.nullifier W x.1).Nodup) : CollisionFree W V K := by
  intro b ⟨txid, r, hr, hb⟩ b' ⟨txid', r', hr', hb'⟩ e
  have hsame := inj_on_of_nodup_map hnodup (h.recognised hr) (h.recognised hr')
    (show r.nullifier W txid = r'.nullifier W txid' from by rw [hb, hb'] at e; exact e)
  rw [Prod.mk.injEq] at hsame
  rw [hb, hb', hsame.1, hsame.2]

theorem TxView.Within.not_owned (h : V.Within ids) {nf : Hash}
    (hnf : ∀ x ∈ viewReceipts W V K ids, x.2.nullifier W x.1 ≠ nf) : ¬ OwnedNullifier W V K nf := by
  intro ⟨txid, r, hr, e⟩
  exact hnf (txid, r) (h.recognised hr) e

/-- `ValidEvent` as a test, given nullifiers that are not the wallet's. -/
def validEvent (W : WalletPrimitives) (V : TxView) (K : LedgerKeys) (foreign : List Hash) (S : Conv) : ConvEvent → Bool
  | .sight _ _ => true
  | .drop _ => true
  | .rollback _ => true
  | .confirm e =>
    (V.tx e.txid).isSome && decide (e.height ≠ unconfirmedHeight) && S.chain.all (fun d => decide (d.height ≤ e.height)) &&
    S.chain.all (fun d => decide (d.txid ≠ e.txid)) &&
    (V.tx e.txid).toList.all fun tx => (spentNullifiers W tx).all fun nf => decide (nf ∈ foreign) ||
      (S.chain.any (fun d => (V.tx d.txid).toList.any fun tx' => (ownReceipts W K tx' d.height).any fun r =>
        decide (r.nullifier W d.txid = nf)) &&
      !(S.chain.any fun d => (V.tx d.txid).toList.any fun tx' => (spentNullifiers W tx').any fun nf' =>
        decide (nf' = nf)))

theorem validEvent_sound {foreign : List Hash} (h : V.Within ids) (hforeign : ∀ nf ∈ foreign, ¬ OwnedNullifier W V K nf)
    {S : Conv} {ev : ConvEvent} (hev : validEvent W V K foreign S ev = true) : ValidEvent W V K S ev := by
  cases ev with
  | sight txid timestamp => exact fun tx htx => h.transfer htx
  | drop txid => trivial
  | rollback k => trivial
  | confirm e =>
    simp only [validEvent, Bool.and_eq_true, decide_eq_true_eq, List.all_eq_true, isSome_iff_exists,
      Bool.or_eq_true, Bool.not_eq_true', List.any_eq_true, List.any_eq_false, mem_toList] at hev
    obtain ⟨⟨⟨⟨hknown, hheight⟩, horder⟩, honce⟩, hspends⟩ := hev
    refine ⟨hknown, hheight, horder, honce, fun tx htx nf hnf hown => ?_⟩
    rcases hspends tx htx nf hnf with hno | ⟨hcreated, hunspent⟩
    · exact absurd hown (hforeign nf hno)
    · refine ⟨hcreated, ?_⟩
      intro ⟨d, hd, tx', htx', hmem⟩
      exact hunspent d hd ⟨tx', htx', nf, hmem, rfl⟩

/-- `CleanSight` as a test. -/
def cleanSight (W : WalletPrimitives) (V : TxView) (foreign : List Hash) (S : Conv) : ConvEvent → Bool
  | .sight txid _ => (S.ledger.history.find txid).isSome || (V.tx txid).toList.all fun tx =>
      (spentNullifiers W tx).all fun nf => decide (nf ∈ foreign) || (S.ledger.outputs.find nf).any fun o => !o.spent
  | _ => true

theorem cleanSight_sound {foreign : List Hash} (hforeign : ∀ nf ∈ foreign, ¬ OwnedNullifier W V K nf) {S : Conv}
    {ev : ConvEvent} (hev : cleanSight W V foreign S ev = true) : CleanSight W V K S ev := by
  cases ev with
  | sight txid timestamp =>
    intro hrow tx htx nf hnf hown
    simp only [cleanSight, hrow, isSome_none, Bool.false_or, List.all_eq_true, mem_toList,
      Bool.or_eq_true, decide_eq_true_eq, Option.any_eq_true] at hev
    rcases hev tx htx nf hnf with hno | ⟨o, ho, hs⟩
    · exact absurd hown (hforeign nf hno)
    · exact ⟨o, ho, by simpa using hs⟩
  | drop txid => trivial
  | rollback k => trivial
  | confirm e => trivial

end

/-- A view of finitely many transactions. -/
def TxView.ofList (l : List (Hash × TransactionPrefix)) (h : ∀ x ∈ l, x.2.outputs.length < 2 ^ 32) : TxView where
  tx txid := (l.find? fun x => decide (x.1 = txid)).map Prod.snd
  outputs_lt := by
    intro txid t ht
    obtain ⟨x, hx, rfl⟩ := map_eq_some_iff.mp ht
    exact h x (mem_of_find?_eq_some hx)

theorem TxView.mem_ofList {l : List (Hash × TransactionPrefix)} {h : ∀ x ∈ l, x.2.outputs.length < 2 ^ 32} {txid : Hash}
    {tx : TransactionPrefix} (ht : (TxView.ofList l h).tx txid = some tx) : (txid, tx) ∈ l := by
  obtain ⟨x, hx, rfl⟩ := map_eq_some_iff.mp ht
  have hid : x.1 = txid := by simpa using find?_some hx
  rw [← hid]
  exact mem_of_find?_eq_some hx

/-- `toyHashOf 20` is paid by a stranger; `toyHashOf 21` and `toyHashOf 22` both spend
it and have change. -/
def toyReplaceTxs : List (Hash × TransactionPrefix) :=
  [(toyHashOf 20, toyTransfer nullHash toyDepositKey (toyCoins 0 0) 50 (toyCoins 0 1)),
   (toyHashOf 21, toyTransfer (toyHashOf 20) toyKeys.spendPub (toyCoins 0 1) 30 (toyCoins 0 2)),
   (toyHashOf 22, toyTransfer (toyHashOf 20) toyKeys.spendPub (toyCoins 0 1) 20 (toyCoins 0 3))]

def toyReplaceIds : List Hash := toyReplaceTxs.map Prod.fst

/-- Version, type, one output and at most one nullifier. -/
theorem toyReplaceTxs_shape : ∀ x ∈ toyReplaceTxs, x.2.version = transactionVersion1 ∧ x.2.txType = txPq ∧
    x.2.outputs.length = 1 ∧ (spentNullifiers toyWallet x.2).length ≤ 1 := by
  decide +kernel

def toyReplaceView : TxView :=
  .ofList toyReplaceTxs fun x hx => by
    rw [(toyReplaceTxs_shape x hx).2.2.1]
    decide

theorem toyReplaceView_mem {txid : Hash} {tx : TransactionPrefix} (h : toyReplaceView.tx txid = some tx) :
    (txid, tx) ∈ toyReplaceTxs :=
  TxView.mem_ofList h

theorem toyReplaceView_within : toyReplaceView.Within toyReplaceIds where
  mem h := List.mem_map.mpr ⟨_, toyReplaceView_mem h, rfl⟩
  transfer h := by
    rw [(toyReplaceTxs_shape _ (toyReplaceView_mem h)).2.1]
    decide

/-- What the stranger spends. -/
def toyForeign : List Hash :=
  spentNullifiers toyWallet (toyTransfer nullHash toyDepositKey (toyCoins 0 0) 50 (toyCoins 0 1))

theorem toyReplace_receipts :
    ((viewReceipts toyWallet toyReplaceView toyLedger.keys toyReplaceIds).map fun x => x.2.nullifier toyWallet x.1).Nodup ∧
    (∀ nf ∈ toyForeign, nf ∉ (viewReceipts toyWallet toyReplaceView toyLedger.keys toyReplaceIds).map
      fun x => x.2.nullifier toyWallet x.1) ∧
    ∀ x ∈ toyReplaceTxs, ((ownReceipts toyWallet toyLedger.keys x.2 0).map fun r => r.amount.toNat).sum < 2 ^ 64 := by
  decide +kernel

theorem toyForeign_not_owned : ∀ nf ∈ toyForeign, ¬ OwnedNullifier toyWallet toyReplaceView toyLedger.keys nf :=
  fun nf hnf => toyReplaceView_within.not_owned fun x hx e =>
    toyReplace_receipts.2.1 nf hnf (List.mem_map.mpr ⟨x, hx, e⟩)

theorem toyReplaceView_sound : SoundView toyWallet toyReplaceView toyLedger.keys where
  collisionFree := toyReplaceView_within.collisionFree toyReplace_receipts.1
  version h := by
    rw [(toyReplaceTxs_shape _ (toyReplaceView_mem h)).1]
    decide
  debits_lt {txid tx} h := by
    have hlen : (spentNullifiers toyWallet tx).length ≤ 1 := (toyReplaceTxs_shape _ (toyReplaceView_mem h)).2.2.2
    match spentNullifiers toyWallet tx, hlen with
    | [], _ => simp
    | [nf], _ =>
      rw [toFinset_cons, toFinset_nil, insert_empty_eq, Finset.sum_singleton]
      exact UInt64.toNat_lt _
  credits_lt {txid tx} h height := by
    rw [ownReceipts_of_not_coinbase (toyReplaceView_within.transfer h) height 0]
    exact toyReplace_receipts.2.2 (txid, tx) (toyReplaceView_mem h)

theorem convMachine_init (V : TxView) (G : Conv → ConvEvent → Prop) :
    ((convMachine toyWallet V toyLedger.keys).lts G).Reachable ⟨Ledger.fresh toyLedger.keys, ∅, []⟩ :=
  .init rfl

/-- A payment, its spend seen in the pool and confirmed, the spend rolled back, and its
replacement confirmed. -/
theorem converges_replacement :
    ∃ S, ((convMachine toyWallet toyReplaceView toyLedger.keys).lts fun S ev =>
        ValidEvent toyWallet toyReplaceView toyLedger.keys S ev ∧
        CleanSight toyWallet toyReplaceView toyLedger.keys S ev).Reachable S ∧
      S.pending = ∅ ∧ S.chain.length = 2 ∧ S.ledger.balance = 20 ∧
      S.ledger.Agrees (scanChain toyWallet toyReplaceView toyLedger.keys S.chain) := by
  obtain ⟨S, hrun, hp⟩ := (Option.any_eq_true _ _).mp
    (show ((convMachine toyWallet toyReplaceView toyLedger.keys).runIf
      (fun S ev => validEvent toyWallet toyReplaceView toyLedger.keys toyForeign S ev &&
        cleanSight toyWallet toyReplaceView toyForeign S ev) ⟨Ledger.fresh toyLedger.keys, ∅, []⟩
      [.confirm ⟨toyHashOf 20, 1, 2⟩, .sight (toyHashOf 21) 3, .confirm ⟨toyHashOf 21, 2, 4⟩, .rollback 2,
        .sight (toyHashOf 22) 6, .confirm ⟨toyHashOf 22, 2, 7⟩]).any
      (fun S => decide (S.pending = ∅ ∧ S.chain.length = 2 ∧ S.ledger.balance = 20)) = true by decide +kernel)
  have hreach := Machine.runIf_reachable (G := fun S ev =>
    ValidEvent toyWallet toyReplaceView toyLedger.keys S ev ∧ CleanSight toyWallet toyReplaceView toyLedger.keys S ev)
    (fun _ _ hg => by
      rw [Bool.and_eq_true] at hg
      exact ⟨validEvent_sound toyReplaceView_within toyForeign_not_owned hg.1, cleanSight_sound toyForeign_not_owned hg.2⟩)
    (convMachine_init _ _) hrun
  obtain ⟨hpending, hlen, hbalance⟩ := of_decide_eq_true hp
  exact ⟨S, hreach, hpending, hlen, hbalance, converges toyReplaceView_sound hreach hpending⟩

/-- Two pool transactions spend the same output and the second is confirmed: its row
keeps the sums of its first sight, which did not count the output. -/
theorem replacement_row_wrong :
    SoundView toyWallet toyReplaceView toyLedger.keys ∧ ∃ S, ((convMachine toyWallet toyReplaceView toyLedger.keys).lts
        (ValidEvent toyWallet toyReplaceView toyLedger.keys)).Reachable S ∧
      S.pending = ∅ ∧ (∃ t ∈ S.ledger.history.entries, t.txid = toyHashOf 22 ∧ t.outgoing = false) ∧
      (∃ t ∈ (scanChain toyWallet toyReplaceView toyLedger.keys S.chain).history.entries,
        t.txid = toyHashOf 22 ∧ t.outgoing = true) ∧
      ¬ S.ledger.Agrees (scanChain toyWallet toyReplaceView toyLedger.keys S.chain) := by
  refine ⟨toyReplaceView_sound, ?_⟩
  obtain ⟨S, hrun, hp⟩ := (Option.any_eq_true _ _).mp
    (show ((convMachine toyWallet toyReplaceView toyLedger.keys).runIf
      (validEvent toyWallet toyReplaceView toyLedger.keys toyForeign) ⟨Ledger.fresh toyLedger.keys, ∅, []⟩
      [.confirm ⟨toyHashOf 20, 1, 2⟩, .sight (toyHashOf 21) 3, .sight (toyHashOf 22) 4, .confirm ⟨toyHashOf 22, 2, 5⟩,
        .drop (toyHashOf 21)]).any
      (fun S => decide (S.pending = ∅ ∧ (∃ t ∈ S.ledger.history.entries, t.txid = toyHashOf 22 ∧ t.outgoing = false) ∧
        (∃ t ∈ (scanChain toyWallet toyReplaceView toyLedger.keys S.chain).history.entries,
          t.txid = toyHashOf 22 ∧ t.outgoing = true) ∧
        ∀ t ∈ (scanChain toyWallet toyReplaceView toyLedger.keys S.chain).history.entries,
          t.txid = toyHashOf 22 → t.outgoing = true)) = true by decide +kernel)
  have hreach := Machine.runIf_reachable (G := ValidEvent toyWallet toyReplaceView toyLedger.keys)
    (fun _ _ hg => validEvent_sound toyReplaceView_within toyForeign_not_owned hg) (convMachine_init _ _) hrun
  obtain ⟨hpending, hwrong, hright, hall⟩ := of_decide_eq_true hp
  refine ⟨S, hreach, hpending, hwrong, hright, fun hagree => ?_⟩
  obtain ⟨t, ht, hid, hin⟩ := hwrong
  rw [hall t (hagree.history.mem_iff.mp ht) hid] at hin
  cases hin

end Discrete.L6
