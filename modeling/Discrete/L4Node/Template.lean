import Discrete.L3Ledger.BlockRow
import Discrete.L4Node.Calls

/-!
# Block templates

`fill_block_template` takes what is ready from the fee index. An id that was ready once is
in the set of validated ids and is not checked again while it is in the pool: nothing takes
it out when the chain moves (`on_blockchain_inc` and `on_blockchain_dec`, which would, are
never called).

* `stale_template`: so a template can hold a transaction that the chain refuses, a double
  spend of one that was mined meanwhile.
* `Selection`: what the loop has chosen, as a list of entries.
* `template_accepted`: as long as no call takes away what a validated transaction rests
  on, a template is a row of valid transactions that are apart from each other, and no
  block is refused because of one of them.
-/
namespace Discrete.L4
open List L1 L2 L3

/-! ## The validated ids -/

/-- Every validated id names a transaction of the pool that passes on the chain. -/
structure CacheFresh (E : Env) (db : Db) (p : Pool) : Prop where
  held : ∀ id ∈ p.validatedTransactions, (p.view id).isSome
  passes : ∀ id ∈ p.validatedTransactions, ∀ tx, p.view id = some tx → (checkTransactionInputs E db tx none).isSome

section CacheFresh
variable {E : Env} {db : Db} {p p' : Pool}

theorem CacheFresh.of_empty (h : p.validatedTransactions = ∅) : CacheFresh E db p := by
  refine ⟨?_, ?_⟩
  · intro id hid
    rw [h] at hid
    cases hid
  · intro id hid
    rw [h] at hid
    cases hid

theorem CacheFresh.of_eq (h : CacheFresh E db p) (hview : p'.view = p.view)
    (hsub : p'.validatedTransactions ⊆ p.validatedTransactions) : CacheFresh E db p' := by
  refine ⟨fun id hid => ?_, fun id hid tx htx => ?_⟩
  · rw [hview]
    exact h.held id (hsub hid)
  · rw [hview] at htx
    exact h.passes id (hsub hid) tx htx

/-- A transaction that leaves the pool is forgotten. -/
theorem CacheFresh.remove (h : CacheFresh E db p) {id : Hash} (hview : p'.view = p.view.remove id)
    (hvalidated : p'.validatedTransactions = p.validatedTransactions.erase id) : CacheFresh E db p' := by
  have hother : ∀ k ∈ p'.validatedTransactions, k ∈ p.validatedTransactions ∧ p'.view k = p.view k := by
    intro k hk
    rw [hvalidated, Finset.mem_erase] at hk
    refine ⟨hk.2, ?_⟩
    rw [hview, Table.remove_apply, if_neg hk.1]
  refine ⟨fun k hk => ?_, fun k hk tx htx => ?_⟩
  · rw [(hother k hk).2]
    exact h.held k (hother k hk).1
  · rw [(hother k hk).2] at htx
    exact h.passes k (hother k hk).1 tx htx

theorem CacheFresh.removeAll {remove : Pool → TransactionDetails → Pool}
    (hremove : ∀ p d, (remove p d).view = p.view.remove d.id ∧
      (remove p d).validatedTransactions = p.validatedTransactions.erase d.id)
    (l : List TransactionDetails) (h : CacheFresh E db p) : CacheFresh E db (l.foldl remove p) :=
  foldlRecOn l _ h fun p hp d _ => hp.remove (hremove p d).1 (hremove p d).2

/-- A new transaction is not validated yet. -/
theorem CacheFresh.addTx (h : CacheFresh E db p) (sizeLimit now : Nat) (tx : Transaction) (id : Hash) (blobSize : Nat)
    (kept : Bool) : CacheFresh E db (addTx E db sizeLimit now p tx id blobSize kept).2 := by
  rcases addTx_cases E db sizeLimit now p tx id blobSize kept with hsame | ⟨habsent, hview, hvalidated⟩
  · rw [hsame]
    exact h
  generalize (L4.addTx E db sizeLimit now p tx id blobSize kept).2 = p' at hview hvalidated ⊢
  have hother : ∀ k ∈ p.validatedTransactions, p'.view k = p.view k := by
    intro k hk
    rw [hview, Table.put_of_ne]
    rintro rfl
    have := h.held k hk
    rw [habsent] at this
    cases this
  refine ⟨fun k hk => ?_, fun k hk tx' htx' => ?_⟩
  · rw [hvalidated] at hk
    rw [hother k hk]
    exact h.held k hk
  · rw [hvalidated] at hk
    rw [hother k hk] at htx'
    exact h.passes k hk tx' htx'

theorem CacheFresh.moves {N : NodeEnv} (h : CacheFresh N.toEnv db p) (hmoves : PoolMoves N db p p') :
    CacheFresh N.toEnv db p' := by
  induction hmoves with
  | refl => exact h
  | tail _ hmove ih =>
    cases hmove with
    | keep sizeLimit now tx => exact ih.addTx sizeLimit now tx _ _ true
    | take id htake =>
      obtain ⟨-, hview, hvalidated⟩ := takeTx_view htake
      exact ih.remove hview hvalidated

theorem CacheFresh.onIdle (h : CacheFresh E db p) (now : Nat) :
    CacheFresh E db (removeStaleAccountRegistrations E.P db (removeExpiredTransactions E.P now p)) := by
  have hexpired : CacheFresh E db (removeExpiredTransactions E.P now p) := by
    refine CacheFresh.removeAll ?_ _ (h.of_eq rfl (Finset.Subset.refl _))
    intro p d
    exact ⟨removeTransaction_view E.P { p with recentlyDeletedTransactions := _ } d,
      removeTransaction_validated E.P { p with recentlyDeletedTransactions := _ } d⟩
  exact CacheFresh.removeAll (fun p d => ⟨removeTransaction_view E.P p d, removeTransaction_validated E.P p d⟩) _ hexpired

/-- What is ready passes, from the set or by a new check, and the set stays right. -/
theorem CacheFresh.look (h : CacheFresh E db p) {txd : TransactionDetails} (hheld : p.view txd.id = some txd.tx)
    {ready : Bool} {info : TransactionCheckInfo} {validated : Finset Hash}
    (hr : readyThroughCache E db p txd = (ready, info, validated)) :
    (ready = true → (checkTransactionInputs E db txd.tx none).isSome) ∧
      ∀ {p' : Pool}, p'.view = p.view → p'.validatedTransactions = validated → CacheFresh E db p' := by
  unfold readyThroughCache at hr
  split at hr
  · rename_i hcached
    cases hr
    exact ⟨fun _ => h.passes _ hcached _ hheld, fun hview hvalidated => h.of_eq hview hvalidated.subset⟩
  split at hr
  · rename_i info' hready
    cases hr
    have hpasses := isTransactionReadyToGo_true (show (isTransactionReadyToGo E db txd.tx _).1 = true by rw [hready])
    refine ⟨fun _ => hpasses, ?_⟩
    intro p' hview hvalidated
    refine ⟨fun id hid => ?_, fun id hid tx htx => ?_⟩
    · rw [hvalidated, Finset.mem_insert] at hid
      rw [hview]
      rcases hid with rfl | hid
      · rw [hheld]
        rfl
      · exact h.held id hid
    · rw [hvalidated, Finset.mem_insert] at hid
      rw [hview] at htx
      rcases hid with rfl | hid
      · rw [hheld] at htx
        cases htx
        exact hpasses
      · exact h.passes id hid tx htx
  · cases hr
    exact ⟨fun hno => absurd hno Bool.false_ne_true, fun hview hvalidated => h.of_eq hview hvalidated.subset⟩

theorem view_of_mem {d : TransactionDetails} (hd : d ∈ p.transactions.entries) : p.view d.id = some d.tx :=
  view_eq_some.mpr ⟨d, hd, rfl, rfl⟩

theorem CacheFresh.getDifference (h : CacheFresh E db p) : CacheFresh E db (getDifference E db p) := by
  refine foldlRecOn (motive := fun validated => CacheFresh E db { p with validatedTransactions := validated }) _ _ h ?_
  intro validated hv d hd
  split
  · exact hv
  · exact (hv.look (view_of_mem hd) rfl).2 rfl rfl

end CacheFresh

/-! ## What the loop selects -/

/-- The loop over the fee index stands at `s` and has chosen `ds`. -/
structure Selection (E : Env) (db : Db) (s : TemplateScan) (ds : List TransactionDetails) : Prop where
  hashes : s.template.txHashes = ds.map (·.id)
  images : s.template.keyImages = ds.flatMap fun d => spendImages E.P d.tx
  accounts : s.template.pqAccountRegistrations = ds.flatMap fun d => (getPqAccountRegistrationId E.P d.tx).toList
  freeRegs : s.template.freeRegCount = (ds.filter fun d => isFreeReg d.tx).length
  room : s.template.freeRegCount ≤ freeRegPerBlock
  size : s.totalSize = (ds.map (·.blobSize)).sum
  fee : s.fee = (ds.map (·.fee)).sum
  unregistered : ∀ d ∈ ds, isAccountAlreadyRegisteredOnChain E.P db d.tx = false
  apart : ds.Pairwise fun d e => Apart E.P d.tx e.tx

section Selection
variable {E : Env} {db : Db} {p : Pool} {s s' : TemplateScan} {ds : List TransactionDetails}

theorem Selection.of_eq (h : Selection E db s ds) (htemplate : s'.template = s.template)
    (hsize : s'.totalSize = s.totalSize) (hfee : s'.fee = s.fee) : Selection E db s' ds := by
  obtain ⟨h1, h2, h3, h4, h5, h6, h7, h8, h9⟩ := h
  rw [← htemplate] at h1 h2 h3 h4 h5
  exact ⟨h1, h2, h3, h4, h5, hsize.trans h6, hfee.trans h7, h8, h9⟩

/-- One more entry that the template admits. -/
theorem Selection.add (h : Selection E db s ds) {d : TransactionDetails}
    (hunregistered : isAccountAlreadyRegisteredOnChain E.P db d.tx = false)
    (hadd : s.template.addTransaction E.P d.id d.tx = some s'.template)
    (hsize : s'.totalSize = s.totalSize + d.blobSize) (hfee : s'.fee = s.fee + d.fee) :
    Selection E db s' (ds ++ [d]) := by
  unfold BlockTemplate.addTransaction at hadd
  split at hadd
  · cases hadd
  rename_i hcan
  rw [not_not] at hcan
  simp only [BlockTemplate.canAdd, Bool.and_eq_true, Bool.not_eq_true'] at hcan
  obtain ⟨⟨himages, haccounts⟩, hroom⟩ := hcan
  rw [List.any_eq_false] at himages
  simp only [decide_eq_true_eq, h.images, mem_flatMap] at himages
  rw [h.accounts] at haccounts
  rw [Option.some.injEq] at hadd
  have htemplate := hadd.symm
  have hapart : ∀ e ∈ ds, Apart E.P e.tx d.tx := by
    intro e he
    refine ⟨fun k hk hke => himages k hk ⟨e, he, hke⟩, fun a ha hae => ?_⟩
    rw [ha] at haccounts
    simp only [Option.any_some, decide_eq_false_iff_not, mem_flatMap] at haccounts
    exact haccounts ⟨e, he, Option.mem_toList.mpr hae⟩
  refine ⟨?_, ?_, ?_, ?_, ?_, ?_, ?_, ?_, ?_⟩
  · rw [htemplate, map_append]
    simp only [h.hashes]
    rfl
  · rw [htemplate, flatMap_append]
    simp only [h.images, flatMap_singleton]
  · rw [htemplate, flatMap_append]
    simp only [h.accounts, flatMap_singleton]
  · rw [htemplate, filter_append, length_append]
    simp only [h.freeRegs, filter_singleton]
    cases isFreeReg d.tx with
    | true => rfl
    | false => rfl
  · rw [htemplate]
    have hle := h.room
    simp only
    split
    · rename_i hfree
      simp only [hfree, Bool.true_and, decide_eq_false_iff_not] at hroom
      omega
    · exact hle
  · rw [hsize, h.size, map_append, sum_append, map_singleton, sum_singleton]
  · rw [hfee, h.fee, map_append, sum_append, map_singleton, sum_singleton]
  · intro e he
    rcases mem_append.mp he with he | he
    · exact h.unregistered e he
    · rw [mem_singleton.mp he]
      exact hunregistered
  · refine pairwise_append.mpr ⟨h.apart, pairwise_singleton _ _, ?_⟩
    intro e he d' hd'
    rw [mem_singleton.mp hd']
    exact hapart e he

/-- A turn adds the entry or not. While the validated ids are right, what it adds passes. -/
theorem Selection.turn (h : Selection E db s ds) {d : TransactionDetails} (hd : s.pool.view d.id = some d.tx)
    (ht : FillTurn E db s d s') :
    ∃ es, es.Sublist [d] ∧ Selection E db s' (ds ++ es) ∧ (CacheFresh E db s.pool →
      CacheFresh E db s'.pool ∧ ∀ e ∈ es, (checkTransactionInputs E db e.tx none).isSome) := by
  have hview := ht.view
  cases ht with
  | passed => exact ⟨[], nil_sublist _, by rwa [append_nil], fun hcache => ⟨hcache, by simp⟩⟩
  | looked hreg hr hpool hchoice =>
    have hcached : CacheFresh E db s.pool → CacheFresh E db s'.pool :=
      fun hcache => (hcache.look hd hr).2 hview (by rw [hpool])
    rcases hchoice with ⟨htemplate, hsize, hfee⟩ | ⟨hready, hadd, hsize, hfee⟩
    · refine ⟨[], nil_sublist _, ?_, fun hcache => ⟨hcached hcache, by simp⟩⟩
      rw [append_nil]
      exact h.of_eq htemplate hsize hfee
    · refine ⟨[d], .refl _, h.add hreg hadd hsize hfee, fun hcache => ⟨hcached hcache, ?_⟩⟩
      intro e he
      rw [mem_singleton.mp he]
      exact (hcache.look hd hr).1 hready

/-- The whole loop chooses some of the entries, in their order. -/
theorem fillBlockTemplate_selects (E : Env) (db : Db) (p : Pool) (medianSize maxCumulativeSize : Nat) :
    ∃ ds, ds.Sublist p.transactions.entries ∧
      Selection E db (fillBlockTemplate E db p medianSize maxCumulativeSize) ds ∧ (CacheFresh E db p →
        CacheFresh E db (fillBlockTemplate E db p medianSize maxCumulativeSize).pool ∧
          ∀ d ∈ ds, (checkTransactionInputs E db d.tx none).isSome) := by
  have hloop : ∀ (m : Nat) (l : List TransactionDetails) (s : TemplateScan) (ds : List TransactionDetails),
      Selection E db s ds → (∀ d ∈ l, s.pool.view d.id = some d.tx) →
      ∃ es, es.Sublist l ∧ Selection E db (l.foldl (fillTurn E db medianSize m) s) (ds ++ es) ∧
        (CacheFresh E db s.pool → CacheFresh E db (l.foldl (fillTurn E db medianSize m) s).pool ∧
          ∀ d ∈ es, (checkTransactionInputs E db d.tx none).isSome) := by
    intro m l
    induction l with
    | nil => exact fun s ds hs _ => ⟨[], .slnil, by rwa [append_nil], fun hcache => ⟨hcache, by simp⟩⟩
    | cons d l ih =>
      intro s ds hs hl
      have ht := fillTurn_cases E db medianSize m s d
      obtain ⟨es, hes, hs', hcache⟩ := hs.turn (hl d (by simp)) ht
      have hl' : ∀ e ∈ l, (fillTurn E db medianSize m s d).pool.view e.id = some e.tx := by
        intro e he
        rw [ht.view]
        exact hl e (by simp [he])
      obtain ⟨es', hes', hsel, hcache'⟩ := ih _ (ds ++ es) hs' hl'
      refine ⟨es ++ es', hes.append hes', ?_, ?_⟩
      · rw [append_assoc] at hsel
        exact hsel
      · intro hfresh
        obtain ⟨hfresh₁, hpass⟩ := hcache hfresh
        obtain ⟨hfresh₂, hpass'⟩ := hcache' hfresh₁
        refine ⟨hfresh₂, fun e he => ?_⟩
        rcases mem_append.mp he with he | he
        · exact hpass e he
        · exact hpass' e he
  have hstart : Selection E db ⟨p, .empty, 0, 0⟩ [] :=
    ⟨rfl, rfl, rfl, rfl, Nat.zero_le _, rfl, rfl, by simp, .nil⟩
  exact hloop _ p.transactions.entries ⟨p, .empty, 0, 0⟩ [] hstart (fun d hd => view_of_mem hd)

end Selection

/-! ## A template in a block -/

/-- What the pool holds and the chain accepts is ready for the next block. -/
theorem Ready.of_checked {E : Env} {db : Db} {x : Hash × Transaction} (hadmissible : Admissible x.2)
    (hc : (checkTransactionInputs E db x.2 none).isSome)
    (hreg : isAccountAlreadyRegisteredOnChain E.P db x.2 = false) (hid : db.txIndex x.1 = none) : Ready E db x := by
  obtain ⟨m, hm⟩ := Option.isSome_iff_exists.mp hc
  have hother : isPqTransfer x.2.txType = false →
      (blockTxFee db x.2).isSome ∧ ∀ k ∈ spendImages E.P x.2, db.spentKeys k = none := by
    intro htype
    refine ⟨?_, ?_⟩
    · have hle : getOutputAmount x.2 ≤ getInputAmount x.2 := by
        rcases hadmissible.amounts with hpq | hle
        · simp [pqOnlyInputs, htype] at hpq
        · exact hle
      rw [blockTxFee, if_neg (by simp [htype]), if_neg (UInt64.not_lt.mpr hle)]
      rfl
    · rw [spendImages_nil hadmissible.types htype]
      simp
  have hpays : (blockTxFee db x.2).isSome ∧ ∀ k ∈ spendImages E.P x.2, db.spentKeys k = none := by
    obtain ⟨hversion, htype⟩ := TxInputsOk.of_some hm
    rcases htype with ⟨fee, htransfer, hok⟩ | htype | htype
    · refine ⟨?_, ?_⟩
      · rw [blockTxFee, if_pos ⟨hversion.symm ▸ UInt8.le_refl _, htransfer⟩, hok.fee]
        rfl
      · intro k hk
        obtain ⟨i, hi, rfl⟩ := List.mem_map.mp hk
        exact hok.unspent i hi
    · exact hother (by rw [htype]; decide)
    · exact hother (by rw [htype]; decide)
  refine ⟨hc, hpays.1, nodup_of_checked hadmissible hc, hpays.2, ?_, hid⟩
  intro a ha
  unfold isAccountAlreadyRegisteredOnChain Db.getPqAccountNumber at hreg
  simpa [ha] using hreg

variable {N : NodeEnv} {s s' : Node}

/-- No coinbase, on the chain or of the block `b`, has the id of a transaction in the pool:
their types differ, so only a collision of hashes could give them one. -/
structure CoinbasesApart (N : NodeEnv) (s : Node) (b : Block) : Prop where
  own : s.pool.view (getObjectHash N.P b.baseTransaction) = none
  stored : ∀ sb ∈ s.db.storedBlocks, s.pool.view (getObjectHash N.P sb.block.baseTransaction) = none

/-- A transaction of the pool is not on the chain. -/
theorem CoinbasesApart.fresh {b : Block} (h : CoinbasesApart N s b) (hs : NodeOk N s) {id : Hash} {tx : Transaction}
    (hheld : s.pool.view id = some tx) : s.db.txIndex id = none := by
  by_contra hindexed
  obtain ⟨sb, hsb, hid⟩ := hs.built.indexed_iff.mp (Option.isSome_iff_ne_none.mpr hindexed)
  rcases mem_cons.mp hid with rfl | hid
  · rw [h.stored sb hsb] at hheld
    cases hheld
  · rw [hs.apart sb hsb id hid] at hheld
    cases hheld

section Row
variable {t : TemplateScan} {ds : List TransactionDetails} {b : Block}

theorem zip_details (h : b.transactionHashes = ds.map (·.id)) :
    b.transactionHashes.zip (ds.map (·.tx)) = ds.map fun d => (d.id, d.tx) := by
  rw [h, zip_map']

/-- The selected transactions are a row for a block that names them. -/
theorem Selection.row (h : Selection N.toEnv s.db t ds) (hsub : ds.Sublist s.pool.transactions.entries)
    (hpasses : ∀ d ∈ ds, (checkTransactionInputs N.toEnv s.db d.tx none).isSome) (hs : NodeOk N s)
    (hcoinbases : CoinbasesApart N s b) (hb : b.transactionHashes = t.template.txHashes) :
    ReadyRow N.toEnv s.db b (ds.map (·.tx)) := by
  have hzip := zip_details (hb.trans h.hashes)
  have hheld : ∀ d ∈ ds, s.pool.view d.id = some d.tx := fun d hd => view_of_mem (hsub.subset hd)
  refine ⟨?_, ?_, ?_, ?_, ?_⟩
  · intro x hx
    rw [hzip] at hx
    obtain ⟨d, hd, rfl⟩ := List.mem_map.mp hx
    exact Ready.of_checked (Gated.admissible (hs.pool _ _ (hheld d hd)).2) (hpasses d hd) (h.unregistered d hd)
      (hcoinbases.fresh hs (hheld d hd))
  · rw [hzip, pairwise_map]
    exact h.apart
  · rw [hzip, List.map_map]
    exact s.pool.transactions.unique.sublist (hsub.map _)
  · intro x hx hid
    rw [hzip] at hx
    obtain ⟨d, hd, rfl⟩ := List.mem_map.mp hx
    have hown := hcoinbases.own
    rw [← hid, hheld d hd] at hown
    cases hown
  · rw [hzip, List.filter_map, length_map]
    exact h.freeRegs.symm.trans_le h.room

/-- They are all in the pool. -/
theorem Selection.loads (h : Selection N.toEnv s.db t ds) (hsub : ds.Sublist s.pool.transactions.entries)
    (hs : NodeOk N s) (hb : b.transactionHashes = t.template.txHashes) (hdb : s'.db = s.db)
    (hview : s'.pool.view = s.pool.view) :
    ∃ s₂, s'.loadTransactions N b = (.all (ds.map (·.tx)), s₂) ∧ s₂.db = s.db := by
  have hids : b.transactionHashes = ds.map (·.id) := hb.trans h.hashes
  have hheld : ∀ d ∈ ds, s.pool.view d.id = some d.tx := fun d hd => view_of_mem (hsub.subset hd)
  obtain ⟨txs, s₂, hload⟩ := takeAll_all (N := N) b.transactionHashes [] (s := s')
    (by rw [hids]; exact s.pool.transactions.unique.sublist (hsub.map _)) (by
      intro id hid
      rw [hids] at hid
      obtain ⟨d, hd, rfl⟩ := List.mem_map.mp hid
      rw [hview, hheld d hd]
      rfl)
  have hload : s'.loadTransactions N b = (.all txs, s₂) := hload
  obtain ⟨hquiet, hspec⟩ := loadTransactions_spec (N := N) (s := s') (hview.symm ▸ hs.pool) b
  rw [hload] at hquiet hspec
  refine ⟨s₂, ?_, hquiet.db.trans hdb⟩
  -- both lists are what the pool holds under the hashes
  have htxs : txs = ds.map (·.tx) := by
    generalize hv : s₂.pool.view = view₂ at hspec
    cases hspec with
    | all hhashes htaken =>
      refine map_injective_iff.mpr (Option.some_injective _) ?_
      calc txs.map some = txs.map fun tx => s'.pool.view (getObjectHash N.P tx) :=
            map_congr_left fun tx htx => (htaken.held tx htx).symm
        _ = (txs.map (getObjectHash N.P)).map s'.pool.view := by rw [List.map_map]; rfl
        _ = (ds.map (·.id)).map s.pool.view := by rw [hhashes, hids, hview]
        _ = (ds.map (·.tx)).map some := by
          rw [List.map_map, List.map_map]
          exact map_congr_left hheld
  rw [hload, htxs]

end Row

/-! ## Conditions on calls -/

/-- Extending the chain by `b` takes nothing away from the validated transactions: those
that stay are transfers that conflict with no transaction of `b`, and the next height has
the same rules for transfers. -/
structure Harmless (N : NodeEnv) (s : Node) (b : Block) : Prop where
  tip : b.previousBlockHash = s.db.getTailId
  signing : N.currency.pqSigningContextForHeight (s.db.getChainHeight + 1) =
    N.currency.pqSigningContextForHeight s.db.getChainHeight
  transfers : ∀ id ∈ s.pool.validatedTransactions, id ∉ b.transactionHashes → ∀ tx, s.pool.view id = some tx →
    isPqTransfer tx.txType = true ∧ N.currency.isPqTransferTypeAllowedAt tx.txType (s.db.getChainHeight + 1) = true
  apart : ∀ id ∈ s.pool.validatedTransactions, id ∉ b.transactionHashes → ∀ tx, s.pool.view id = some tx →
    Apart N.P b.baseTransaction tx ∧ ∀ h ∈ b.transactionHashes, ∀ y, s.pool.view h = some y → Apart N.P y tx

/-- `b` is beside the tip and its branch has no more work than the main chain. -/
structure StaysAside (N : NodeEnv) (s : Node) (b : Block) : Prop where
  aside : b.previousBlockHash ≠ s.db.getTailId
  lighter : ∀ prevalidated br bei isACheckpoint,
    Accepted N s b (N.prims.getBlockHash b) prevalidated br bei isACheckpoint → isACheckpoint = false ∧
      ¬ (s.db.getBlockMeta (s.db.getChainHeight - 1)).cumulativeDifficulty < bei.cumulativeDifficulty

/-- The chain moves in other ways only while no id is validated. -/
def cacheGuards (N : NodeEnv) : Guards where
  genesis _ := True
  offer s b := s.pool.validatedTransactions = ∅ ∨ Harmless N s b ∨ StaysAside N s b
  rollback s _ := s.pool.validatedTransactions = ∅
  resync s := s.pool.validatedTransactions = ∅

theorem CacheFresh.pushed (h : CacheFresh N.toEnv s.db s.pool) (hs : NodeOk N s) {b : Block} (hb : Harmless N s b)
    {prevalidated : Option Hash} (hpre : ∀ p ∈ prevalidated, N.prims.prevalidateBlockProofOfWork b = some p) :
    CacheFresh N.toEnv (s.pushBlock N b (N.prims.getBlockHash b) prevalidated).2.db
      (s.pushBlock N b (N.prims.getBlockHash b) prevalidated).2.pool := by
  have hpos := hs.built.pos
  have hmoves := h.moves (pushBlock_moves (N := N) s b (N.prims.getBlockHash b) prevalidated)
  obtain ⟨hlater, hspec⟩ := pushBlock_spec hs.pool (fun h0 => by omega) hpre
  generalize (s.pushBlock N b (N.prims.getBlockHash b) prevalidated).1 = outcome at hspec
  generalize (s.pushBlock N b (N.prims.getBlockHash b) prevalidated).2 = s' at hmoves hlater hspec ⊢
  cases hspec with
  | refused hdb =>
    rw [hdb]
    exact hmoves
  | threw hdb =>
    rw [hdb]
    exact hmoves
  | @pushed _ sb hsb hm =>
    refine ⟨hmoves.held, ?_⟩
    intro id hid tx htx
    have hold := hlater.validated hid
    have hcheck := hmoves.passes id hid tx htx
    rw [hm.moved, Table.removeAll_apply] at htx
    split at htx
    · cases htx
    rename_i hstays
    rw [hsb] at hstays
    obtain ⟨htype, hera⟩ := hb.transfers id hold hstays tx htx
    obtain ⟨hcoinbase, hothers⟩ := hb.apart id hold hstays tx htx
    refine hm.pushed.transfer hs.built.wf hpos hb.signing htype hera hcheck ?_
    intro y hy
    rcases mem_cons.mp hy with rfl | hy
    · rw [hsb]
      exact hcoinbase
    · refine hothers (getObjectHash N.P y) ?_ y (hm.taken.held y hy)
      rw [← hsb, ← hm.hashes]
      exact List.mem_map_of_mem hy

theorem CacheFresh.offered (h : CacheFresh N.toEnv s.db s.pool) (hinv : NodeInv N s) {b : Block}
    (hguard : (cacheGuards N).offer s b) {outcome : Outcome} (hoffer : Offer N s b outcome s') :
    CacheFresh N.toEnv s'.db s'.pool := by
  rcases hguard with hempty | hharmless | haside
  · obtain ⟨fuel, prevalidated, hproof, hcall⟩ := hoffer
    have hsub := (hinv.block (.mk fuel b prevalidated hproof hcall)).1.trail.onward.validated
    rw [hempty, Finset.subset_empty] at hsub
    exact .of_empty hsub
  · cases hoffer.cases with
    | refused => exact h
    | pushed _ _ hpre => exact h.pushed hinv.ok hharmless hpre
    | handled _ _ hprev => exact absurd hharmless.tip hprev
  · cases hoffer.cases with
    | refused => exact h
    | pushed _ hprev => exact absurd hprev haside.aside
    | handled fuel _ _ _ hcall =>
      cases fuel with
      | zero => cases hcall
      | succ fuel =>
        rw [handleAlternativeBlock] at hcall
        cases handleWith_cases hcall with
        | unchanged => exact h
        | recorded => exact h
        | stored _ _ hinsert =>
          obtain ⟨alts, -, rfl⟩ := insertAlternative_some hinsert
          exact h
        | switched haccepted hmore =>
          obtain ⟨hno, hless⟩ := haside.lighter _ _ _ _ haccepted
          rcases hmore with hcheckpoint | hmore
          · rw [hcheckpoint] at hno
            cases hno
          · exact absurd hmore hless

theorem CacheFresh.call (h : CacheFresh N.toEnv s.db s.pool) (hcall : PoolCall N s s') :
    CacheFresh N.toEnv s'.db s'.pool := by
  cases hcall with
  | transaction txBlob kept =>
    generalize (handleIncomingTx N s txBlob kept).2 = s', handleIncomingTx_cases (N := N) (s := s) txBlob kept = hin
    cases hin with
    | nothing => exact h
    | added => exact h.addTx _ _ _ _ _ _
  | template medianSize maxCumulativeSize =>
    obtain ⟨ds, -, -, hcache⟩ := fillBlockTemplate_selects N.toEnv s.db s.pool medianSize maxCumulativeSize
    exact (hcache h).1
  | difference => exact h.getDifference
  | idle => exact h.onIdle _

theorem cache_reachable (h : (guardedLts N (cacheGuards N)).Reachable s) : CacheFresh N.toEnv s.db s.pool := by
  induction h with
  | @init s hinit =>
    obtain ⟨genesis, -, -, hpush⟩ := hinit
    have hlater : Later Node.new (Node.new.pushBlock N genesis (N.prims.getBlockHash genesis) none).2 :=
      (pushBlock_spec (fun _ _ hnone => by cases hnone) (fun _ => rfl) (by simp)).1
    rw [hpush] at hlater
    exact .of_empty (Finset.subset_empty.mp hlater.validated)
  | @step s s' hreach hstep ih =>
    have hinv := node_inv (guarded_node hreach)
    cases hstep with
    | offer hguard hoffer => exact ih.offered hinv hguard hoffer
    | pool hcall => exact ih.call hcall
    | rollback hguard => exact .of_empty hguard
    | resync hguard =>
      refine .of_empty ?_
      rw [OperatorCall.pool (N := N) .resync]
      exact hguard

/-- In every run that meets the conditions, every template is a row of transactions that
pass on the chain and share neither spend tags nor accounts, and no block made of it is
refused because of one of them. -/
theorem template_accepted (h : (guardedLts N (cacheGuards N)).Reachable s) (medianSize maxCumulativeSize : Nat) :
    (∀ id ∈ (s.fillBlockTemplate N medianSize maxCumulativeSize).1, ∃ tx, s.pool.view id = some tx ∧
      (checkTransactionInputs N.toEnv s.db tx (some s.db.getChainHeight)).isSome) ∧
    (s.fillBlockTemplate N medianSize maxCumulativeSize).1.Pairwise (fun i j => ∀ x y, s.pool.view i = some x →
      s.pool.view j = some y → Apart N.P x y) ∧ ∀ (b : Block) (prevalidated : Option Hash),
      b.transactionHashes = (s.fillBlockTemplate N medianSize maxCumulativeSize).1 → CoinbasesApart N s b →
      ∃ txs s₁, (s.fillBlockTemplate N medianSize maxCumulativeSize).2.loadTransactions N b = (.all txs, s₁) ∧
        ∀ e, L3.pushBlock N.toEnv (N.clock s₁.reads) s₁.findAlternative prevalidated s₁.db b (N.prims.getBlockHash b)
          txs = .error e → e.blamesTransaction = false := by
  have hs := (node_inv (guarded_node h)).ok
  obtain ⟨ds, hsub, hsel, hcache⟩ := fillBlockTemplate_selects N.toEnv s.db s.pool medianSize maxCumulativeSize
  obtain ⟨-, hpasses⟩ := hcache (cache_reachable h)
  have hheld : ∀ d ∈ ds, s.pool.view d.id = some d.tx := fun d hd => view_of_mem (hsub.subset hd)
  have hids : (s.fillBlockTemplate N medianSize maxCumulativeSize).1 = ds.map (·.id) := hsel.hashes
  refine ⟨?_, ?_, ?_⟩
  · intro id hid
    rw [hids] at hid
    obtain ⟨d, hd, rfl⟩ := List.mem_map.mp hid
    exact ⟨d.tx, hheld d hd, hpasses d hd⟩
  · rw [hids, pairwise_map]
    refine hsel.apart.imp_of_mem ?_
    intro d e hd he hapart x y hx hy
    rw [hheld d hd] at hx
    rw [hheld e he] at hy
    cases hx
    cases hy
    exact hapart
  · intro b prevalidated hb hcoinbases
    have hdb : (s.fillBlockTemplate N medianSize maxCumulativeSize).2.db = s.db := rfl
    obtain ⟨s₁, hload, hdb⟩ := hsel.loads hsub hs hb hdb (fillBlockTemplate_view _ _ _ _ _)
    refine ⟨_, s₁, hload, ?_⟩
    intro e he
    rw [hdb] at he
    exact pushBlock_row hs.built.wf (hsel.row hsub hpasses hs hcoinbases hb) he

/-! ### Runs -/

/-- As `flatPrimitives`, but a transaction is known by both of its ends. -/
def edgePrimitives : NodePrimitives :=
  { flatPrimitives with cnFastHash := fun bs => toyHash (bs.take 16 ++ bs.drop (bs.length - 16)) }

def edgeNode : NodeEnv := { flatNode with prims := edgePrimitives }

/-- A transfer of the genesis output. -/
def edgeSpend (amount : UInt64) (mark : UInt8) : Transaction :=
  { toyTransfer [(getObjectHash edgeNode.P flatGenesis.baseTransaction, toyRho 0)] amount with
    pqSignatures := [⟨List.replicate pqSignatureSize mark, length_replicate⟩] }

/-- A transfer arrives and is filled into a template. -/
def edgeFilled (s : Node) : Node :=
  ((handleIncomingTx edgeNode s (toBinaryArray (edgeSpend 990 0)) false).2.fillBlockTemplate edgeNode 100000 100000).2

theorem edgeFilled_run {G : Guards} {s : Node} (h : (guardedLts edgeNode G).Reachable s) :
    (guardedLts edgeNode G).Reachable (edgeFilled s) :=
  (h.step (.pool (.transaction (toBinaryArray (edgeSpend 990 0)) false))).step (.pool (.template 100000 100000))

/-- The transfer stays validated while a block without transactions is added. -/
theorem template_accepted_edgeSpend :
    ∃ s, (guardedLts edgeNode (cacheGuards edgeNode)).Reachable s ∧
      getObjectHash edgeNode.P (edgeSpend 990 0) ∈ s.pool.validatedTransactions ∧ s.db.getChainHeight = 2 ∧
      ∀ id ∈ (s.fillBlockTemplate edgeNode 100000 100000).1, ∃ tx, s.pool.view id = some tx ∧
        (checkTransactionInputs edgeNode.toEnv s.db tx (some s.db.getChainHeight)).isSome := by
  obtain ⟨s, hrun, hp⟩ := (Option.any_eq_true _ _).mp (show
    (offerBlocks edgeNode (fun _ _ => true) 2 flatGenesis []).any (fun s =>
      decide ((edgeFilled s).db.getTailId = flatId flatGenesis ∧ (edgeFilled s).db.getChainHeight = 1 ∧
        ∀ id ∈ (edgeFilled s).pool.validatedTransactions, ∀ tx ∈ (edgeFilled s).pool.view id,
          isPqTransfer tx.txType = true ∧ edgeNode.currency.isPqTransferTypeAllowedAt tx.txType 2 = true ∧
            (getPqAccountRegistrationId edgeNode.P tx).isNone) &&
      (addNewBlock edgeNode 2 (edgeFilled s) (flatNext flatGenesis 1 1090 []) none).any fun r =>
        decide (getObjectHash edgeNode.P (edgeSpend 990 0) ∈ r.2.pool.validatedTransactions ∧
          r.2.db.getChainHeight = 2)) = true by decide +kernel)
  rw [Bool.and_eq_true, decide_eq_true_eq] at hp
  have hstart : (guardedLts edgeNode (cacheGuards edgeNode)).Reachable s :=
    offerBlocks_run rfl trivial (fun _ _ hb => absurd hb not_mem_nil) hrun
  have hfilled := edgeFilled_run hstart
  generalize edgeFilled s = t at hp hfilled
  obtain ⟨⟨htail, hheight, htransfers⟩, hcall⟩ := hp
  obtain ⟨⟨outcome, s'⟩, hcall, hr⟩ := (Option.any_eq_true _ _).mp hcall
  obtain ⟨hcached, htwo⟩ := of_decide_eq_true hr
  have hhashes : (flatNext flatGenesis 1 1090 []).transactionHashes = [] := rfl
  have himages : spendImages edgeNode.P (flatNext flatGenesis 1 1090 []).baseTransaction = [] := rfl
  have hharmless : Harmless edgeNode t (flatNext flatGenesis 1 1090 []) := by
    refine ⟨htail.symm, by rw [hheight]; rfl, ?_, ?_⟩
    · intro id hid _ tx htx
      obtain ⟨htype, hera, -⟩ := htransfers id hid tx htx
      rw [hheight]
      exact ⟨htype, hera⟩
    · intro id hid _ tx htx
      obtain ⟨-, -, hnone⟩ := htransfers id hid tx htx
      rw [Option.isNone_iff_eq_none] at hnone
      rw [Apart, himages, hnone, hhashes]
      exact ⟨⟨fun _ _ => not_mem_nil, fun a ha => by cases ha⟩, fun h hh => by cases hh⟩
  have hreach := hfilled.step (.offer (.inr (.inl hharmless)) (.mk 2 none (by simp) hcall))
  exact ⟨s', hreach, hcached, htwo, (template_accepted hreach 100000 100000).1⟩

/-- No condition. -/
def anyCall : Guards := ⟨fun _ => True, fun _ _ => True, fun _ _ => True, fun _ => True⟩

/-- Another transfer of the same output arrives with a block that holds it. -/
def edgeBlock : Block :=
  flatBlock (flatId flatGenesis) 1 1090 8030 [getObjectHash edgeNode.P (edgeSpend 980 1)]

/-- The first transfer goes into the next template, though its output is spent. -/
theorem stale_template :
    ∃ s, (nodeLts edgeNode).Reachable s ∧ ∃ tx,
      (s.fillBlockTemplate edgeNode 100000 100000).1 = [getObjectHash edgeNode.P tx] ∧
      s.pool.view (getObjectHash edgeNode.P tx) = some tx ∧
      checkTransactionInputs edgeNode.toEnv s.db tx (some s.db.getChainHeight) = none := by
  obtain ⟨s, hrun, hp⟩ := (Option.any_eq_true _ _).mp (show
    (offerBlocks edgeNode (fun _ _ => true) 2 flatGenesis []).any (fun s =>
      (addNewBlock edgeNode 2 (handleIncomingTx edgeNode (edgeFilled s) (toBinaryArray (edgeSpend 980 1)) true).2
        edgeBlock none).any fun r =>
          decide ((r.2.fillBlockTemplate edgeNode 100000 100000).1 = [getObjectHash edgeNode.P (edgeSpend 990 0)] ∧
            r.2.pool.view (getObjectHash edgeNode.P (edgeSpend 990 0)) = some (edgeSpend 990 0) ∧
            checkTransactionInputs edgeNode.toEnv r.2.db (edgeSpend 990 0) (some r.2.db.getChainHeight) = none)) = true by
    decide +kernel)
  obtain ⟨⟨outcome, s'⟩, hcall, hr⟩ := (Option.any_eq_true _ _).mp hp
  have hstart : (guardedLts edgeNode anyCall).Reachable s :=
    offerBlocks_run rfl trivial (fun _ _ hb => absurd hb not_mem_nil) hrun
  have harrived := (edgeFilled_run hstart).step (.pool (.transaction (toBinaryArray (edgeSpend 980 1)) true))
  have hreach := harrived.step (.offer trivial (.mk 2 none (by simp) hcall))
  exact ⟨s', guarded_node hreach, edgeSpend 990 0, of_decide_eq_true hr⟩

end Discrete.L4
