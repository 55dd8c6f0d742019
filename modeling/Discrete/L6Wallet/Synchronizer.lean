import Discrete.L6Wallet.Ledger

/-!
# Block synchronisation (`BlockchainSynchronizer.cpp`, `WalletLedgerConsumer.cpp`)

The synchronizer keeps the hashes of the blocks its consumer has scanned
(`SynchronizationState`). A response of the node is an interval of blocks:
`updateConsumers` looks for the first listed hash that differs, detaches there, and
hands the blocks behind the list to `onNewBlocks`, which scans them transaction by
transaction and reports how many it finished. An exception ends the scan anywhere;
it is caught, and the blocks finished so far are listed.

The list is modelled with the contents that were delivered (`Sync.blocks`); there is
one consumer, the wallet's ledger. A transaction that does not parse is not in its
block.

`ledger_eq_scanAll`: in every run in which a scan that is stopped has met nothing of
the wallet in the block it was stopped in, the ledger is the one that scanning the
listed blocks gives. What a stopped scan has found otherwise stays behind, and a
reorganisation of that block does not take it back (`stopped_scan_remains`).
-/
namespace Discrete.L6
open UInt32 List L1 L2 L3

/-- A block as it is delivered: without a body before the wallet's first day. -/
structure CompleteBlock where
  blockHash : Hash
  /-- Of the block only the timestamp is read. -/
  block : Option UInt64
  transactions : List (Hash × TransactionPrefix)
  deriving DecidableEq

/-! ## Scanning -/

/-- Where an exception stops a scan: in the transaction `tx` of the block `block`,
after `step` of its spends and receipts. -/
structure ScanStop where
  block : Nat
  tx : Nat
  step : Nat

section
variable (W : WalletPrimitives)

/-- mirrors WalletLedgerConsumer.cpp:64-97 -/
def Ledger.scanReader (height : UInt32) (timestamp : UInt64) (L : Ledger) (x : Hash × TransactionPrefix) : Ledger :=
  (L.processTransaction W x.2 x.1 height timestamp).1

def Ledger.scanBody (L : Ledger) (height : UInt32) (b : CompleteBlock) : Ledger :=
  match b.block with
  | none => L
  | some timestamp => b.transactions.foldl (Ledger.scanReader W height timestamp) L

def Ledger.scanBlock (L : Ledger) (height : UInt32) (b : CompleteBlock) : Ledger :=
  { L.scanBody W height b with lastScannedHeight := height }

def Ledger.scanBlocks (L : Ledger) : Nat → List CompleteBlock → Ledger
  | _, [] => L
  | height, b :: bs => (L.scanBlock W (UInt32.ofNat height) b).scanBlocks (height + 1) bs

/-- `processTransaction` up to an exception. The history is written last. -/
def Ledger.interrupt (L : Ledger) (tx : TransactionPrefix) (txid : Hash) (height : UInt32) (step : Nat) : Ledger :=
  if tx.version < transactionVersion1 then L
  else
    let spends := spentNullifiers W tx
    let s := (spends.take step).foldl (Scan.spend txid height) ⟨L.outputs, 0, 0, false⟩
    let received := (receipts W (L.scanningKeys W) tx height).take (step - spends.length)
    { L with outputs := (received.foldl (Scan.receive W txid height) s).outputs }

def Ledger.scanPart (L : Ledger) (height : UInt32) (b : CompleteBlock) (stop : ScanStop) : Ledger :=
  match b.block with
  | none => L
  | some timestamp =>
    let L := (b.transactions.take stop.tx).foldl (Ledger.scanReader W height timestamp) L
    match b.transactions[stop.tx]? with
    | none => L
    | some x => L.interrupt W x.2 x.1 height stop.step

/-- The ledger and the number of blocks finished.
mirrors WalletLedgerConsumer.cpp:99-148 -/
def onNewBlocks (L : Ledger) (startHeight : Nat) (blocks : List CompleteBlock) (stop : Option ScanStop) :
    Ledger × Nat :=
  match stop.bind fun stop => blocks[stop.block]?.map fun b => (stop, b) with
  | none => (L.scanBlocks W startHeight blocks, blocks.length)
  | some (stop, b) =>
    let L := L.scanBlocks W startHeight (blocks.take stop.block)
    (L.scanPart W (UInt32.ofNat (startHeight + stop.block)) b stop, stop.block)

end

/-! ## The synchronizer -/

/-- mirrors SynchronizationState.h:34-39 -/
structure CheckResult where
  detachHeight : Option Nat
  newBlockHeight : Option Nat

/-- mirrors SynchronizationState.cpp:69-96 -/
def checkInterval (blockchain : List Hash) (startHeight : Nat) (interval : List Hash) : CheckResult :=
  let intervalEnd := startHeight + interval.length
  let iterationEnd := min blockchain.length intervalEnd
  let differs (i : Nat) : Bool := decide (blockchain[i]? ≠ interval[i - startHeight]?)
  match (List.range' startHeight (iterationEnd - startHeight)).find? differs with
  | some i => ⟨some i, some i⟩
  | none => ⟨none, if intervalEnd > blockchain.length then some blockchain.length else none⟩

structure BlockchainInterval where
  startHeight : UInt32
  blocks : List CompleteBlock

/-- The consumer's ledger and the blocks of its `SynchronizationState`. -/
structure Sync where
  ledger : Ledger
  blocks : List CompleteBlock

inductive UpdateConsumersResult where
  | nothingChanged | addedNewBlocks | errorOccurred

def Sync.check (S : Sync) (interval : BlockchainInterval) : CheckResult :=
  checkInterval (S.blocks.map CompleteBlock.blockHash) interval.startHeight.toNat
    (interval.blocks.map CompleteBlock.blockHash)

/-- mirrors SynchronizationState.cpp:98-101 -/
def Sync.detach (S : Sync) (height : Nat) : Sync :=
  ⟨S.ledger.rollbackToHeight (UInt32.ofNat height), S.blocks.take height⟩

/-- After the detach that the response asks for, if it does. -/
def Sync.detached (S : Sync) (interval : BlockchainInterval) : Sync :=
  match (S.check interval).detachHeight with
  | none => S
  | some height => S.detach height

section
variable (W : WalletPrimitives)

/-- The blocks of the response from `height` on.
mirrors BlockchainSynchronizer.cpp:655-681 -/
def Sync.addNewBlocks (S : Sync) (interval : BlockchainInterval) (height : Nat) (stop : Option ScanStop) :
    Sync × UpdateConsumersResult :=
  let startHeight := interval.startHeight.toNat
  if height < startHeight ∨ height ≥ startHeight + interval.blocks.length then (S, .errorOccurred)
  else
    let blocks := interval.blocks.drop (height - startHeight)
    let scanned := onNewBlocks W S.ledger height blocks stop
    (⟨scanned.1, S.blocks ++ blocks.take scanned.2⟩,
      if scanned.2 = 0 ∨ scanned.2 < blocks.length then .errorOccurred else .addedNewBlocks)

/-- mirrors BlockchainSynchronizer.cpp:616-700 -/
def Sync.updateConsumers (S : Sync) (interval : BlockchainInterval) (stop : Option ScanStop) :
    Sync × UpdateConsumersResult :=
  if interval.blocks.length > 2 ^ 32 - 1 - interval.startHeight.toNat then (S, .errorOccurred)
  else if interval.startHeight.toNat > S.blocks.length then (S, .errorOccurred)
  else
    match (S.check interval).newBlockHeight with
    | none => (S.detached interval, .nothingChanged)
    | some height => (S.detached interval).addNewBlocks W interval height stop

/-- A fresh ledger after a chain of blocks. -/
def scanAll (K : LedgerKeys) (blocks : List CompleteBlock) : Ledger := (Ledger.fresh K).scanBlocks W 0 blocks

end

/-! ## Rolling back what was scanned

`Settled n`: nothing of the pool and nothing at height `n` or above. -/

structure PqWalletOutput.Settled (n : Nat) (o : PqWalletOutput) : Prop where
  height : o.height.toNat < n
  spent : o.spent = true → o.spentHeight.toNat < n
  unspent : o.spent = false → o.spentHeight = 0 ∧ o.spentTxid = nullHash

structure Ledger.Settled (n : Nat) (L : Ledger) : Prop where
  outputs : ∀ o ∈ L.outputs.entries, o.Settled n
  history : ∀ t ∈ L.history.entries, t.height.toNat < n

section
variable {W : WalletPrimitives} {n : Nat} {h k : UInt32}

theorem orphaned_iff {seen : UInt32} (hseen : seen.toNat < n) (hn : n ≤ unconfirmedHeight.toNat) :
    Orphaned h seen ↔ h ≤ seen := by
  refine ⟨fun hs => hs.1, fun hs => ⟨hs, fun e => ?_⟩⟩
  rw [e] at hseen
  omega

theorem not_promotes {seen : UInt32} (hseen : seen.toNat < n) (hn : n ≤ unconfirmedHeight.toNat) :
    ¬ Promotes seen k := by
  intro hp
  rw [hp.1] at hseen
  omega

namespace PqWalletOutput
variable {o : PqWalletOutput}

theorem Settled.spendBy (ho : o.Settled n) (hk : k.toNat < n) (txid : Hash) : (o.spendBy txid k).Settled n := by
  unfold PqWalletOutput.spendBy
  split
  · exact ⟨ho.height, fun _ => hk, (fun hf => by cases hf)⟩
  · rename_i hs
    split
    · exact ⟨ho.height, fun _ => hk, fun hf => absurd hf (by simpa using hs)⟩
    · exact ho

theorem Settled.mono {m : Nat} (ho : o.Settled n) (hm : n ≤ m) : o.Settled m :=
  ⟨Nat.lt_of_lt_of_le ho.height hm, fun hs => Nat.lt_of_lt_of_le (ho.spent hs) hm, ho.unspent⟩

theorem Settled.unspend_eq (ho : o.Settled n) (hs : o.spent = false) : o.unspend = o := by
  obtain ⟨hheight, htxid⟩ := ho.unspent hs
  cases o
  simp_all [unspend]

/-- A spend seen at `h` or above is taken back by a rollback to `h`. -/
theorem Settled.rollback_spendBy (ho : o.Settled n) (hn : n ≤ unconfirmedHeight.toNat) (hk : k.toNat < n) (hh : h ≤ k)
    (txid : Hash) : (o.spendBy txid k).rollback h = o.rollback h := by
  unfold PqWalletOutput.spendBy
  split
  · rename_i hs
    have hs : o.spent = false := by simpa using hs
    have horph : Orphaned h k := (orphaned_iff hk hn).mpr hh
    unfold rollback
    by_cases hdrop : Orphaned h o.height
    · simp [hdrop]
    · have hun := ho.unspend_eq hs
      rw [unspend] at hun
      simp [hdrop, horph, hs, unspend, hun]
  · split
    · rename_i hs hp
      exact absurd hp (not_promotes (ho.spent (by simpa using hs)) hn)
    · rfl

theorem Settled.rollback_eq (ho : o.Settled h.toNat) : o.rollback h = some o := by
  have hheight : ¬ Orphaned h o.height := fun hs => by
    have := le_iff_toNat_le.mp hs.1
    have := ho.height
    omega
  have hspent : ¬ (o.spent = true ∧ Orphaned h o.spentHeight) := fun hs => by
    have := le_iff_toNat_le.mp hs.2.1
    have := ho.spent hs.1
    omega
  rw [rollback, if_neg hheight, if_neg hspent]

end PqWalletOutput

/-- The records that a rollback to `h` leaves. -/
def OutputTable.below (h : UInt32) (c : OutputTable) : List PqWalletOutput :=
  c.entries.filterMap (PqWalletOutput.rollback h)

/-- A scan at height `k`, seen from below `h`: nothing happened. -/
structure Undone (n : Nat) (h : UInt32) (c c' : OutputTable) : Prop where
  settled : ∀ o ∈ c'.entries, o.Settled n
  below : OutputTable.below h c' = OutputTable.below h c

theorem Undone.spend {s : Scan} (hs : ∀ o ∈ s.outputs.entries, o.Settled n) (hn : n ≤ unconfirmedHeight.toNat)
    (hk : k.toNat < n) (hh : h ≤ k) (txid nf : Hash) : Undone n h s.outputs (s.spend txid k nf).outputs := by
  unfold Scan.spend
  split
  · exact ⟨hs, rfl⟩
  · constructor
    · intro o' ho'
      obtain ⟨o, ho, rfl⟩ := List.mem_map.mp ho'
      split
      · exact (hs o ho).spendBy hk txid
      · exact hs o ho
    · simp only [OutputTable.below, MultiIndex.modify, filterMap_map]
      refine filterMap_congr fun o ho => ?_
      rw [Function.comp_apply]
      split
      · exact (hs o ho).rollback_spendBy hn hk hh txid
      · rfl

theorem Undone.receive {s : Scan} (hs : ∀ o ∈ s.outputs.entries, o.Settled n) (hn : n ≤ unconfirmedHeight.toNat)
    (hk : k.toNat < n) (hh : h ≤ k) (txid : Hash) (r : Receipt) :
    Undone n h s.outputs (s.receive W txid k r).outputs := by
  unfold Scan.receive
  split
  · rename_i o ho
    split
    · rename_i hp
      exact absurd hp (not_promotes (hs o (MultiIndex.find_eq_some.mp ho).1).height hn)
    · exact ⟨hs, rfl⟩
  · rename_i hfind
    have hfresh : PqWalletOutput.rollback h (r.record W txid k) = none :=
      if_pos ((orphaned_iff hk hn).mpr hh)
    constructor
    · intro o ho
      rcases MultiIndex.mem_push ho with ho | rfl
      · exact hs o ho
      · exact ⟨hk, (fun hf => by cases hf), fun _ => ⟨rfl, rfl⟩⟩
    · simp only [OutputTable.below, MultiIndex.push]
      split
      · rfl
      · rw [filterMap_append, filterMap_cons_none hfresh, filterMap_nil, append_nil]

theorem Undone.foldl {α : Type} {f : Scan → α → Scan}
    (hf : ∀ s a, (∀ o ∈ s.outputs.entries, o.Settled n) → Undone n h s.outputs (f s a).outputs)
    (l : List α) (s : Scan) (hs : ∀ o ∈ s.outputs.entries, o.Settled n) :
    Undone n h s.outputs (l.foldl f s).outputs := by
  refine foldlRecOn (motive := fun t : Scan => Undone n h s.outputs t.outputs) _ _ ⟨hs, rfl⟩ fun t ht a _ => ?_
  have hone := hf t a ht.settled
  exact ⟨hone.settled, hone.below.trans ht.below⟩

theorem Undone.scanTransaction {L : Ledger} (hL : L.Settled n) (hn : n ≤ unconfirmedHeight.toNat) (hk : k.toNat < n)
    (hh : h ≤ k) (tx : TransactionPrefix) (txid : Hash) :
    Undone n h L.outputs (L.scanTransaction W tx txid k).outputs := by
  have hspends := Undone.foldl (fun s nf hs => Undone.spend hs hn hk hh txid nf) (spentNullifiers W tx)
    ⟨L.outputs, 0, 0, false⟩ hL.outputs
  have hreceives := Undone.foldl (fun s r hs => Undone.receive (W := W) hs hn hk hh txid r)
    (receipts W (L.scanningKeys W) tx k) _ hspends.settled
  exact ⟨hreceives.settled, hreceives.below.trans hspends.below⟩

theorem updateHistory_undone {c : HistoryTable} (hc : ∀ t ∈ c.entries, t.height.toNat < n)
    (hn : n ≤ unconfirmedHeight.toNat) (hk : k.toNat < n) (hh : h ≤ k) (tx : TransactionPrefix) (txid : Hash)
    (timestamp debited credited : UInt64) :
    (∀ t ∈ (updateHistory c tx txid k timestamp debited credited).1.entries, t.height.toNat < n) ∧
      (updateHistory c tx txid k timestamp debited credited).1.entries.filterMap (PqWalletTransaction.rollback h) =
        c.entries.filterMap (PqWalletTransaction.rollback h) := by
  unfold updateHistory
  split
  · rename_i t ht
    split
    · rename_i hp
      exact absurd hp (not_promotes (hc t (MultiIndex.find_eq_some.mp ht).1) hn)
    · exact ⟨hc, rfl⟩
  · split
    · have hrow : PqWalletTransaction.rollback h (newRow tx txid k timestamp debited credited) = none :=
        if_pos ((orphaned_iff hk hn).mpr hh)
      constructor
      · intro t ht
        rcases MultiIndex.mem_push ht with ht | rfl
        · exact hc t ht
        · exact hk
      · simp only [MultiIndex.push]
        split
        · rfl
        · rw [filterMap_append, filterMap_cons_none hrow, filterMap_nil, append_nil]
    · exact ⟨hc, rfl⟩

namespace Ledger
variable {L L' : Ledger}

theorem Settled.mono {m : Nat} (hL : L.Settled n) (hm : n ≤ m) : L.Settled m :=
  ⟨fun o ho => (hL.outputs o ho).mono hm, fun t ht => Nat.lt_of_lt_of_le (hL.history t ht) hm⟩

/-- One transaction at height `k` is taken back by a rollback to any `h ≤ k`. -/
theorem Settled.scanReader (hL : L.Settled n) (hn : n ≤ unconfirmedHeight.toNat) (hk : k.toNat < n) (hh : h ≤ k)
    (timestamp : UInt64) (x : Hash × TransactionPrefix) :
    (Ledger.scanReader W k timestamp L x).Settled n ∧
      (Ledger.scanReader W k timestamp L x).rollbackToHeight h = L.rollbackToHeight h := by
  unfold Ledger.scanReader processTransaction
  split
  · exact ⟨hL, rfl⟩
  · have ho := Undone.scanTransaction (W := W) hL hn hk hh x.2 x.1
    have hhist := updateHistory_undone hL.history hn hk hh x.2 x.1 timestamp
      (L.scanTransaction W x.2 x.1 k).debited (L.scanTransaction W x.2 x.1 k).credited
    refine ⟨⟨ho.settled, hhist.1⟩, ?_⟩
    simp only [rollbackToHeight, Ledger.mk.injEq, true_and, and_true]
    exact ⟨MultiIndex.ext ho.below, MultiIndex.ext hhist.2⟩

theorem Settled.scanBody (hL : L.Settled n) (hn : n ≤ unconfirmedHeight.toNat) (hk : k.toNat < n) (hh : h ≤ k)
    (b : CompleteBlock) :
    (L.scanBody W k b).Settled n ∧ (L.scanBody W k b).rollbackToHeight h = L.rollbackToHeight h := by
  unfold Ledger.scanBody
  split
  · exact ⟨hL, rfl⟩
  · rename_i timestamp _
    refine foldlRecOn (motive := fun L' : Ledger => L'.Settled n ∧ L'.rollbackToHeight h = L.rollbackToHeight h)
      _ _ ⟨hL, rfl⟩ ?_
    intro L' ⟨hL', hback⟩ x _
    have hone := hL'.scanReader (W := W) hn hk hh timestamp x
    exact ⟨hone.1, hone.2.trans hback⟩

/-! ## The cursor

`scanBlock` overwrites `lastScannedHeight` and nothing else reads it. -/

def withCursor (L : Ledger) (c : UInt32) : Ledger := { L with lastScannedHeight := c }

/-- Everything but the cursor. -/
def content (L : Ledger) : Ledger := L.withCursor 0

theorem eq_of_content (hc : L.content = L'.content) (h : L.lastScannedHeight = L'.lastScannedHeight) : L = L' := by
  cases L
  cases L'
  simp_all [content, withCursor]

theorem scanBody_withCursor (c : UInt32) (b : CompleteBlock) :
    (L.withCursor c).scanBody W k b = (L.scanBody W k b).withCursor c := by
  have hone : ∀ (timestamp : UInt64) (x : Hash × TransactionPrefix) (L : Ledger),
      Ledger.scanReader W k timestamp (L.withCursor c) x = (Ledger.scanReader W k timestamp L x).withCursor c := by
    intro timestamp x L
    unfold Ledger.scanReader processTransaction
    split <;> rfl
  unfold Ledger.scanBody
  split
  · rfl
  · exact foldl_hom (Ledger.withCursor · c) fun L x => hone _ x L

theorem scanBlock_congr (hc : L.content = L'.content) (b : CompleteBlock) : L.scanBlock W k b = L'.scanBlock W k b := by
  have h : ∀ M : Ledger, M.scanBlock W k b = (M.content.scanBody W k b).withCursor k := by
    intro M
    rw [content, scanBody_withCursor]
    rfl
  rw [h, h, hc]

theorem content_scanBlocks (hc : L.content = L'.content) (start : Nat) :
    ∀ bs, (L.scanBlocks W start bs).content = (L'.scanBlocks W start bs).content
  | [] => hc
  | b :: bs => by rw [scanBlocks, scanBlocks, scanBlock_congr hc]

theorem scanBlocks_append (L : Ledger) (start : Nat) (bs bs' : List CompleteBlock) :
    L.scanBlocks W start (bs ++ bs') = (L.scanBlocks W start bs).scanBlocks W (start + bs.length) bs' := by
  induction bs generalizing L start with
  | nil => rfl
  | cons b bs ih =>
    rw [cons_append, scanBlocks, ih, scanBlocks, length_cons]
    congr 1
    omega

theorem cursor_scanBlocks (L : Ledger) (start : Nat) {bs : List CompleteBlock} (hbs : bs ≠ []) :
    (L.scanBlocks W start bs).lastScannedHeight = UInt32.ofNat (start + bs.length - 1) := by
  induction bs generalizing L start with
  | nil => exact absurd rfl hbs
  | cons b bs ih =>
    rw [scanBlocks]
    by_cases hne : bs = []
    · subst hne
      rfl
    · rw [ih _ _ hne, length_cons]
      congr 1
      omega

/-! ## Blocks taken back -/

theorem Settled.scanBlocks (hL : L.Settled n) {bs : List CompleteBlock}
    (hlen : n + bs.length ≤ unconfirmedHeight.toNat) : (L.scanBlocks W n bs).Settled (n + bs.length) := by
  induction bs generalizing L n with
  | nil => exact hL
  | cons b bs ih =>
    rw [length_cons] at hlen
    have hmax : unconfirmedHeight.toNat < 2 ^ 32 := by decide
    have hk : (UInt32.ofNat n).toNat < n + 1 := by
      rw [toNat_ofNat']
      omega
    have hone := (Settled.scanBody (W := W) (hL.mono (Nat.le_succ n)) (by omega) hk (UInt32.le_refl _) b).1
    have hrest := ih (L := L.scanBlock W (UInt32.ofNat n) b) (n := n + 1) ⟨hone.outputs, hone.history⟩ (by omega)
    rw [Ledger.scanBlocks, length_cons]
    convert hrest using 1
    omega

theorem content_rollback (hc : L.content = L'.content) (h : UInt32) :
    (L.rollbackToHeight h).content = (L'.rollbackToHeight h).content := by
  cases L
  cases L'
  simp_all [content, withCursor, rollbackToHeight]

/-- Blocks scanned from `h` on are taken back by a rollback to `h`. -/
theorem Settled.rollback_scanBlocks (hL : L.Settled n) (hh : h.toNat ≤ n) {bs : List CompleteBlock}
    (hlen : n + bs.length ≤ unconfirmedHeight.toNat) :
    ((L.scanBlocks W n bs).rollbackToHeight h).content = (L.rollbackToHeight h).content := by
  induction bs generalizing L n with
  | nil => rfl
  | cons b bs ih =>
    rw [length_cons] at hlen
    have hmax : unconfirmedHeight.toNat < 2 ^ 32 := by decide
    have hval : (UInt32.ofNat n).toNat = n := by
      rw [toNat_ofNat']
      omega
    have hone := Settled.scanBody (W := W) (h := h) (hL.mono (Nat.le_succ n)) (by omega) (k := UInt32.ofNat n)
      (by omega) (le_iff_toNat_le.mpr (by omega)) b
    have hrest := ih (L := L.scanBlock W (UInt32.ofNat n) b) (n := n + 1) ⟨hone.1.outputs, hone.1.history⟩ (by omega)
      (by omega)
    have hcursor : (L.scanBlock W (UInt32.ofNat n) b).content = (L.scanBody W (UInt32.ofNat n) b).content := rfl
    rw [Ledger.scanBlocks, hrest, content_rollback hcursor, hone.2]

theorem Settled.rollback_content (hL : L.Settled h.toNat) : (L.rollbackToHeight h).content = L.content := by
  have hout : L.outputs.filterMap (PqWalletOutput.rollback h) PqWalletOutput.nullifier_rollback = L.outputs := by
    refine MultiIndex.ext ?_
    show L.outputs.entries.filterMap (PqWalletOutput.rollback h) = L.outputs.entries
    rw [filterMap_congr (g := some) fun o ho => (hL.outputs o ho).rollback_eq, filterMap_some]
  have hrow : ∀ t ∈ L.history.entries, PqWalletTransaction.rollback h t = some t := by
    intro t ht
    refine if_neg fun hs => ?_
    have := le_iff_toNat_le.mp hs.1
    have := hL.history t ht
    omega
  have hhist : ∀ hf, L.history.filterMap (PqWalletTransaction.rollback h) hf = L.history := by
    intro hf
    refine MultiIndex.ext ?_
    show L.history.entries.filterMap (PqWalletTransaction.rollback h) = L.history.entries
    rw [filterMap_congr (g := some) hrow, filterMap_some]
  simp only [content, withCursor, rollbackToHeight, hout, hhist]

end Ledger

theorem scanAll_settled (K : LedgerKeys) {bs : List CompleteBlock} (hlen : bs.length ≤ unconfirmedHeight.toNat) :
    (scanAll W K bs).Settled bs.length := by
  have hfresh : (Ledger.fresh K).Settled 0 := ⟨(fun _ ho => by cases ho), (fun _ ht => by cases ht)⟩
  have hscan : ((Ledger.fresh K).scanBlocks W 0 bs).Settled (0 + bs.length) := hfresh.scanBlocks (by omega)
  rwa [Nat.zero_add] at hscan

/-- Rolling back to a height leaves what scanning the blocks below it gives. -/
theorem rollback_scanAll (K : LedgerKeys) {bs : List CompleteBlock} (hlen : bs.length ≤ unconfirmedHeight.toNat) {d : Nat}
    (hd : d ≤ bs.length) :
    ((scanAll W K bs).rollbackToHeight (UInt32.ofNat d)).content = (scanAll W K (bs.take d)).content := by
  have hmax : unconfirmedHeight.toNat < 2 ^ 32 := by decide
  have hval : (UInt32.ofNat d).toNat = d := by
    rw [toNat_ofNat']
    omega
  have htake : (bs.take d).length = d := length_take_of_le hd
  have hsettled : (scanAll W K (bs.take d)).Settled d := by
    have htaken := scanAll_settled (W := W) K (htake.trans_le (hd.trans hlen))
    rwa [htake] at htaken
  have hsplit : scanAll W K bs = (scanAll W K (bs.take d)).scanBlocks W d (bs.drop d) := by
    have happ := (Ledger.fresh K).scanBlocks_append (W := W) 0 (bs.take d) (bs.drop d)
    rw [take_append_drop, htake, Nat.zero_add] at happ
    exact happ
  rw [hsplit, hsettled.rollback_scanBlocks (by omega) (by rw [length_drop]; omega)]
  exact Ledger.Settled.rollback_content (by rwa [hval])

/-! ## Stopped scans -/

/-- The transaction neither spends from the wallet nor pays to it. -/
def Quiet (W : WalletPrimitives) (L : Ledger) (height : UInt32) (x : Hash × TransactionPrefix) : Prop :=
  x.2.version < transactionVersion1 ∨
    (∀ nf ∈ spentNullifiers W x.2, L.outputs.find nf = none) ∧ receipts W (L.scanningKeys W) x.2 height = []

instance (L : Ledger) (height : UInt32) (x : Hash × TransactionPrefix) : Decidable (Quiet W L height x) :=
  inferInstanceAs (Decidable (_ ∨ _ ∧ _))

theorem foldl_spend_quiet {s : Scan} {txid : Hash} {l : List Hash} (hl : ∀ nf ∈ l, s.outputs.find nf = none) :
    l.foldl (Scan.spend txid k) s = s := by
  refine foldlRecOn (motive := (· = s)) l _ rfl ?_
  rintro _ rfl nf hnf
  rw [Scan.spend, hl nf hnf]

namespace Quiet
variable {L : Ledger} {x : Hash × TransactionPrefix}

theorem scanReader (hq : Quiet W L k x) (hL : L.Settled n) (hn : n ≤ unconfirmedHeight.toNat) (timestamp : UInt64) :
    L.scanReader W k timestamp x = L := by
  unfold Ledger.scanReader Ledger.processTransaction
  split
  · rfl
  · rename_i hv
    obtain ⟨hspends, hreceipts⟩ := hq.resolve_left hv
    have hscan : L.scanTransaction W x.2 x.1 k = ⟨L.outputs, 0, 0, false⟩ := by
      rw [Ledger.scanTransaction, hreceipts, foldl_spend_quiet hspends]
      rfl
    have hhist : (updateHistory L.history x.2 x.1 k timestamp 0 0).1 = L.history := by
      unfold updateHistory
      split
      · rename_i t ht
        rw [if_neg (not_promotes (hL.history t (MultiIndex.find_eq_some.mp ht).1) hn)]
      · rw [if_neg (by decide)]
    rw [hscan]
    dsimp only
    rw [hhist]

theorem interrupt (hq : Quiet W L k x) (step : Nat) : L.interrupt W x.2 x.1 k step = L := by
  unfold Ledger.interrupt
  split
  · rfl
  · rename_i hv
    obtain ⟨hspends, hreceipts⟩ := hq.resolve_left hv
    dsimp only
    rw [hreceipts, foldl_spend_quiet fun nf hnf => hspends nf (mem_of_mem_take hnf)]
    simp

theorem scanPart {b : CompleteBlock} {stop : ScanStop} (hL : L.Settled n) (hn : n ≤ unconfirmedHeight.toNat)
    (hq : ∀ x ∈ b.transactions.take (stop.tx + 1), Quiet W L k x) : L.scanPart W k b stop = L := by
  unfold Ledger.scanPart
  split
  · rfl
  · rename_i timestamp _
    have hloop : (b.transactions.take stop.tx).foldl (Ledger.scanReader W k timestamp) L = L := by
      refine foldlRecOn (motive := (· = L)) _ _ rfl ?_
      rintro _ rfl x hx
      exact (hq x ((take_sublist_take_left (Nat.le_succ stop.tx)).subset hx)).scanReader hL hn timestamp
    dsimp only
    rw [hloop]
    split
    · rfl
    · rename_i x hx
      refine (hq x ?_).interrupt stop.step
      rw [take_add_one, hx]
      simp

end Quiet

/-- A scan that meets nothing of the wallet where it is stopped is the scan of the
blocks it finished. -/
theorem onNewBlocks_eq {L : Ledger} {start : Nat} {blocks : List CompleteBlock} {stop : Option ScanStop}
    (hL : L.Settled start) (hlen : start + blocks.length ≤ unconfirmedHeight.toNat)
    (hq : ∀ s ∈ stop, ∀ b ∈ blocks[s.block]?, ∀ x ∈ b.transactions.take (s.tx + 1),
      Quiet W (L.scanBlocks W start (blocks.take s.block)) (UInt32.ofNat (start + s.block)) x) :
    ∃ count, onNewBlocks W L start blocks stop = (L.scanBlocks W start (blocks.take count), count) := by
  unfold onNewBlocks
  split
  · exact ⟨blocks.length, by rw [take_length]⟩
  · rename_i s b hstop
    obtain ⟨s', hs', hb'⟩ := Option.bind_eq_some_iff.mp hstop
    obtain ⟨b', hb', e⟩ := Option.map_eq_some_iff.mp hb'
    cases e
    have hsettled : (L.scanBlocks W start (blocks.take s.block)).Settled (start + (blocks.take s.block).length) :=
      hL.scanBlocks (by rw [length_take]; omega)
    refine ⟨s.block, ?_⟩
    dsimp only
    rw [Quiet.scanPart hsettled (by rw [length_take]; omega) (hq s hs' b hb')]

/-! ## Runs -/

theorem checkInterval_detach {chain interval : List Hash} {start d : Nat}
    (h : (checkInterval chain start interval).detachHeight = some d) :
    (checkInterval chain start interval).newBlockHeight = some d ∧ d < chain.length := by
  unfold checkInterval at h ⊢
  dsimp only at h ⊢
  split at h
  · rename_i i hi
    cases h
    refine ⟨rfl, ?_⟩
    have hmem := mem_of_find?_eq_some hi
    rw [mem_range'_1] at hmem
    omega
  · cases h

theorem checkInterval_new {chain interval : List Hash} {start i : Nat}
    (hnone : (checkInterval chain start interval).detachHeight = none)
    (h : (checkInterval chain start interval).newBlockHeight = some i) : i = chain.length := by
  unfold checkInterval at h hnone
  dsimp only at h hnone
  split at h
  · rename_i j hj
    rw [hj] at hnone
    cases hnone
  · dsimp only at h
    split at h
    · exact (Option.some.inj h).symm
    · cases h

/-- A response of the node, and where its scan is stopped. -/
structure Response where
  interval : BlockchainInterval
  stop : Option ScanStop

/-- Where the scan is stopped, the transactions it has reached in the block are
nothing to the wallet. -/
def StopsQuietly (W : WalletPrimitives) (S : Sync) (e : Response) : Prop :=
  ∀ height ∈ (S.check e.interval).newBlockHeight, ∀ stop ∈ e.stop,
    ∀ b ∈ (e.interval.blocks.drop (height - e.interval.startHeight.toNat))[stop.block]?,
      ∀ x ∈ b.transactions.take (stop.tx + 1), Quiet W ((S.detached e.interval).ledger.scanBlocks W height
          ((e.interval.blocks.drop (height - e.interval.startHeight.toNat)).take stop.block))
          (UInt32.ofNat (height + stop.block)) x

instance (S : Sync) (e : Response) : Decidable (StopsQuietly W S e) := by
  unfold StopsQuietly
  infer_instance

/-- One consumer with the keys `K`, from its first response on. -/
def syncMachine (W : WalletPrimitives) (K : LedgerKeys) : Machine Sync Response where
  Init S := S = ⟨Ledger.fresh K, []⟩
  step S e := some (S.updateConsumers W e.interval e.stop).1

theorem syncMachine_init (K : LedgerKeys) (G : Sync → Response → Prop) :
    ((syncMachine W K).lts G).Reachable ⟨Ledger.fresh K, []⟩ :=
  .init rfl

/-- The ledger holds what scanning the listed blocks gives. -/
structure Synced (W : WalletPrimitives) (K : LedgerKeys) (S : Sync) : Prop where
  length : S.blocks.length ≤ unconfirmedHeight.toNat
  content : S.ledger.content = (scanAll W K S.blocks).content
  cursor : S.blocks ≠ [] → S.ledger.lastScannedHeight = UInt32.ofNat (S.blocks.length - 1)

namespace Synced
variable {K : LedgerKeys} {S : Sync}

theorem ledger_eq (h : Synced W K S) (hne : S.blocks ≠ []) : S.ledger = scanAll W K S.blocks := by
  refine Ledger.eq_of_content h.content ?_
  rw [h.cursor hne, scanAll, Ledger.cursor_scanBlocks _ _ hne, Nat.zero_add]

theorem settled (h : Synced W K S) : S.ledger.Settled S.blocks.length := by
  have hscan := scanAll_settled (W := W) K h.length
  have hout : S.ledger.content.outputs = (scanAll W K S.blocks).content.outputs := by rw [h.content]
  have hhist : S.ledger.content.history = (scanAll W K S.blocks).content.history := by rw [h.content]
  refine ⟨fun o ho => hscan.outputs o ?_, fun t ht => hscan.history t ?_⟩
  · exact (congrArg MultiIndex.entries hout) ▸ ho
  · exact (congrArg MultiIndex.entries hhist) ▸ ht

theorem detach (h : Synced W K S) {d : Nat} (hd : d < S.blocks.length) : Synced W K (S.detach d) := by
  have hlen := h.length
  have htake : (S.blocks.take d).length = d := length_take_of_le hd.le
  refine ⟨?_, ?_, fun hne => ?_⟩
  · show (S.blocks.take d).length ≤ _
    omega
  · show (S.ledger.rollbackToHeight _).content = (scanAll W K (S.blocks.take d)).content
    rw [Ledger.content_rollback h.content, rollback_scanAll K hlen hd.le]
  · -- the list was not empty, so the cursor was at its end, above `d`
    have hpos : 0 < d := by
      rcases Nat.eq_zero_or_pos d with rfl | hpos
      · exact absurd (take_zero (l := S.blocks)) hne
      · exact hpos
    have hmax : unconfirmedHeight.toNat < 2 ^ 32 := by decide
    have hval : (UInt32.ofNat d).toNat = d := by
      rw [toNat_ofNat']
      omega
    have hlast : (UInt32.ofNat (S.blocks.length - 1)).toNat = S.blocks.length - 1 := by
      rw [toNat_ofNat']
      omega
    have hcond : S.ledger.lastScannedHeight ≥ UInt32.ofNat d ∧ UInt32.ofNat d > 0 := by
      rw [h.cursor (ne_nil_of_length_pos (by omega))]
      refine ⟨le_iff_toNat_le.mpr ?_, lt_iff_toNat_lt.mpr ?_⟩
      · omega
      · rw [hval]
        exact hpos
    show (if S.ledger.lastScannedHeight ≥ UInt32.ofNat d ∧ UInt32.ofNat d > 0 then UInt32.ofNat d - 1
      else S.ledger.lastScannedHeight) = UInt32.ofNat ((S.blocks.take d).length - 1)
    rw [if_pos hcond, htake, ofNat_sub hpos]
    rfl

theorem detached (h : Synced W K S) (interval : BlockchainInterval) : Synced W K (S.detached interval) := by
  unfold Sync.detached
  split
  · exact h
  · rename_i d hd
    refine h.detach ?_
    have := (checkInterval_detach hd).2
    rwa [length_map] at this

/-- New blocks go where the list ends. -/
theorem newBlockHeight {interval : BlockchainInterval} {height : Nat}
    (h : (S.check interval).newBlockHeight = some height) : height = (S.detached interval).blocks.length := by
  unfold Sync.detached
  split
  · rename_i hnone
    rw [checkInterval_new hnone h, length_map]
  · rename_i d hd
    obtain ⟨hnew, hlt⟩ := checkInterval_detach hd
    rw [length_map] at hlt
    have : some d = some height := hnew.symm.trans h
    rw [← Option.some.inj this]
    exact (length_take_of_le hlt.le).symm

theorem scanBlocks (h : Synced W K S) {bs : List CompleteBlock}
    (hlen : S.blocks.length + bs.length ≤ unconfirmedHeight.toNat) :
    Synced W K ⟨S.ledger.scanBlocks W S.blocks.length bs, S.blocks ++ bs⟩ := by
  refine ⟨by simpa using hlen, ?_, fun hne => ?_⟩
  · have happ := (Ledger.fresh K).scanBlocks_append (W := W) 0 S.blocks bs
    rw [Nat.zero_add] at happ
    rw [scanAll, happ]
    exact Ledger.content_scanBlocks h.content _ _
  · by_cases hbs : bs = []
    · subst hbs
      rw [append_nil] at hne ⊢
      exact h.cursor hne
    · dsimp only
      rw [Ledger.cursor_scanBlocks _ _ hbs, length_append]

theorem addNewBlocks (h : Synced W K S) {interval : BlockchainInterval} {stop : Option ScanStop}
    (hfit : interval.blocks.length ≤ 2 ^ 32 - 1 - interval.startHeight.toNat)
    (hq : ∀ s ∈ stop, ∀ b ∈ (interval.blocks.drop (S.blocks.length - interval.startHeight.toNat))[s.block]?,
      ∀ x ∈ b.transactions.take (s.tx + 1), Quiet W (S.ledger.scanBlocks W S.blocks.length
          ((interval.blocks.drop (S.blocks.length - interval.startHeight.toNat)).take s.block))
          (UInt32.ofNat (S.blocks.length + s.block)) x) :
    Synced W K (S.addNewBlocks W interval S.blocks.length stop).1 := by
  unfold Sync.addNewBlocks
  dsimp only
  split
  · exact h
  · rename_i hin
    have hmax : unconfirmedHeight.toNat = 2 ^ 32 - 1 := by decide
    have hlen : S.blocks.length + (interval.blocks.drop (S.blocks.length - interval.startHeight.toNat)).length ≤
        unconfirmedHeight.toNat := by
      rw [length_drop]
      have := interval.startHeight.toNat_lt
      omega
    obtain ⟨count, hscan⟩ := onNewBlocks_eq h.settled hlen hq
    rw [hscan]
    exact h.scanBlocks (by rw [length_take]; omega)

theorem step {S' : Sync} {e : Response} (h : Synced W K S) (hq : StopsQuietly W S e)
    (hstep : (syncMachine W K).step S e = some S') : Synced W K S' := by
  obtain rfl := Option.some.inj hstep
  unfold Sync.updateConsumers
  split
  · exact h
  · rename_i hfit
    split
    · exact h
    · split
      · exact h.detached e.interval
      · rename_i height hnew
        have hheight := newBlockHeight hnew
        rw [hheight]
        refine (h.detached e.interval).addNewBlocks (not_lt.mp hfit) fun s hs => ?_
        rw [← hheight]
        exact hq height hnew s hs

end Synced

/-- In every run whose stopped scans were stopped quietly: the ledger is the one that
scanning the listed blocks gives. An empty list says nothing about the cursor. -/
theorem ledger_eq_scanAll {K : LedgerKeys} {S : Sync} (h : ((syncMachine W K).lts (StopsQuietly W)).Reachable S) :
    S.ledger.content = (scanAll W K S.blocks).content ∧ (S.blocks ≠ [] → S.ledger = scanAll W K S.blocks) := by
  have hsync : Synced W K S := by
    refine (Machine.inductive_of_step (fun {S} hS => ?_) Synced.step).reachable h
    obtain rfl := hS
    exact ⟨Nat.zero_le _, rfl, fun hne => absurd rfl hne⟩
  exact ⟨hsync.content, hsync.ledger_eq⟩

end

def toyHashOf (n : UInt8) : Hash := toArray _ [n]

def toyEmptyTx : TransactionPrefix := ⟨transactionVersion1, txPq, 0, [], [], []⟩

def toyGenesis : CompleteBlock := ⟨toyHashOf 1, some 0, []⟩

/-- The block at height 1: a transaction between strangers and one that pays the
wallet, in the order given. -/
def toyPayingBlock (payFirst : Bool) : CompleteBlock where
  blockHash := toyHashOf 2
  block := some 60
  transactions :=
    if payFirst then [(toyHashOf 10, toyCoinbaseTx toyKeys.spendPub 1), (toyHashOf 11, toyEmptyTx)]
    else [(toyHashOf 11, toyEmptyTx), (toyHashOf 10, toyCoinbaseTx toyKeys.spendPub 1)]

/-- Another block at height 1. -/
def toyOtherBlock : CompleteBlock := ⟨toyHashOf 3, some 60, []⟩

/-- A scan stopped before the payment, another branch, and back: the payment is there. -/
theorem ledger_eq_scanAll_after_detach :
    ∃ S, ((syncMachine toyWallet toyLedger.keys).lts (StopsQuietly toyWallet)).Reachable S ∧ S.blocks ≠ [] ∧
      S.ledger.balance = 100 ∧ S.ledger.content = (scanAll toyWallet toyLedger.keys S.blocks).content ∧
      (S.blocks ≠ [] → S.ledger = scanAll toyWallet toyLedger.keys S.blocks) := by
  obtain ⟨S, hreach, hlen, hbalance⟩ := Machine.exists_run (P := fun S => S.blocks.length = 2 ∧ S.ledger.balance = 100)
    (syncMachine_init (W := toyWallet) toyLedger.keys (StopsQuietly toyWallet))
    [⟨⟨0, [toyGenesis, toyPayingBlock false]⟩, some ⟨1, 0, 5⟩⟩, ⟨⟨0, [toyGenesis, toyOtherBlock]⟩, none⟩,
      ⟨⟨1, [toyPayingBlock false]⟩, none⟩] (by decide +kernel)
  exact ⟨S, hreach, ne_nil_of_length_pos (by omega), hbalance, ledger_eq_scanAll hreach⟩

/-- A scan stopped behind the payment, then another branch: the block with the payment
was never listed, so nothing is detached and the payment stays. -/
theorem stopped_scan_remains :
    ∃ S, ((syncMachine toyWallet toyLedger.keys).lts Machine.anyEvent).Reachable S ∧ S.ledger.balance = 100 ∧
      (scanAll toyWallet toyLedger.keys S.blocks).balance = 0 ∧
      S.ledger.content ≠ (scanAll toyWallet toyLedger.keys S.blocks).content := by
  obtain ⟨S, hreach, hbalance, hscan⟩ := Machine.exists_run
    (P := fun S => S.ledger.balance = 100 ∧ (scanAll toyWallet toyLedger.keys S.blocks).balance = 0)
    (syncMachine_init (W := toyWallet) toyLedger.keys Machine.anyEvent)
    [⟨⟨0, [toyGenesis, toyPayingBlock true]⟩, some ⟨1, 1, 0⟩⟩, ⟨⟨0, [toyGenesis, toyOtherBlock]⟩, none⟩]
    (by decide +kernel)
  refine ⟨S, hreach, hbalance, hscan, fun e => ?_⟩
  have hsame : S.ledger.content.balance = (scanAll toyWallet toyLedger.keys S.blocks).content.balance := by rw [e]
  have : (100 : UInt64) = 0 := hbalance.symm.trans (hsame.trans hscan)
  cases this

end Discrete.L6
