import Discrete.L4Node.Pool

/-!
# The pool's indices (`TransactionPool.cpp`)

The pool answers "who spends this tag", "who registers this account" and "how many
free registrations are waiting" from three tables beside `m_transactions`.
`addTransactionInputs` fills them after the transaction has been filed and gives up
at the first tag that repeats; `removeTransactionInputs` gives up at the first tag it
does not find. A transaction that comes with a block is not asked whether its tags
are distinct.

* `Indexed`: what the tables hold in any case. A transaction that repeats a tag is
  entered up to the repetition, without its account and uncounted.
* `indices_exact`: as long as the transactions that come with blocks repeat no tag,
  the tables are exact, also after the pool was read back from its file.
* `repeated_tag_inexact`: one that repeats a tag is missing from them.
* `addTx_unchanged_iff`: when a refused transaction leaves the pool as it was.
-/
namespace Discrete.L4
open List L1 L2 L3

/-! ## The pool file -/

/-- What the file holds of the pool: the transactions in the order of a hash table, the
claimed tags and the deletions that are remembered. -/
structure PoolFile where
  transactions : List TransactionDetails
  spentKeyImages : Finset (Hash × Hash)
  recentlyDeletedTransactions : List (Hash × Nat)

/-- mirrors TransactionPool.cpp:606-627 -/
structure PoolFile.Stores (f : PoolFile) (p : Pool) : Prop where
  transactions : f.transactions.Perm p.transactions.entries
  spentKeyImages : f.spentKeyImages = p.spentKeyImages
  recentlyDeletedTransactions : f.recentlyDeletedTransactions.Perm p.recentlyDeletedTransactions

/-- The pool of a process that has just read the file. -/
def PoolFile.read (f : PoolFile) : Pool :=
  { Pool.empty with
    transactions := .ofList transactionPriority f.transactions
    spentKeyImages := f.spentKeyImages
    recentlyDeletedTransactions := f.recentlyDeletedTransactions }

/-- One turn of the loop of `buildIndices`. -/
def buildTurn (P : Primitives) (p : Pool) (d : TransactionDetails) : Pool :=
  { p with
    pqAccountRegistrations :=
      match getPqAccountRegistrationId P d.tx with
      | none => p.pqAccountRegistrations
      | some accountId => insert (accountId, d.id) p.pqAccountRegistrations
    freeRegPoolCount := if isFreeReg d.tx then p.freeRegPoolCount + 1 else p.freeRegPoolCount }

/-- The claimed tags are taken as they come from the file.
mirrors TransactionPool.cpp:860-875 -/
def buildIndices (P : Primitives) (p : Pool) : Pool :=
  p.transactions.entries.foldl (buildTurn P) { p with pqAccountRegistrations := ∅, freeRegPoolCount := 0 }

/-- mirrors TransactionPool.cpp:544-570 -/
def initPool (P : Primitives) (now : Nat) (file : Option PoolFile) : Pool :=
  removeExpiredTransactions P now
    (match file with
    | none => .empty
    | some f => buildIndices P f.read)

/-! ## Claims -/

/-- The keys up to the first that was seen before. -/
def leadingRun : List Hash → List Hash → List Hash
  | _, [] => []
  | seen, k :: ks => if k ∈ seen then [] else k :: leadingRun (k :: seen) ks

theorem leadingRun_eq_self : ∀ {ks seen : List Hash}, ks.Nodup → (∀ k ∈ ks, k ∉ seen) → leadingRun seen ks = ks
  | [], _, _, _ => rfl
  | k :: ks, seen, hnd, hnew => by
    rw [leadingRun, if_neg (hnew k (by simp)), leadingRun_eq_self (nodup_cons.mp hnd).2]
    intro j hj hin
    rcases mem_cons.mp hin with rfl | hin
    · exact (nodup_cons.mp hnd).1 hj
    · exact hnew j (by simp [hj]) hin

theorem leadingRun_fresh : ∀ {ks seen : List Hash} {k : Hash}, k ∈ leadingRun seen ks → k ∉ seen
  | [], _, _, h => by cases h
  | j :: ks, seen, k, h => by
    rw [leadingRun] at h
    split at h
    · cases h
    rename_i hj
    rcases mem_cons.mp h with rfl | h
    · exact hj
    · exact fun hk => leadingRun_fresh h (mem_cons_of_mem _ hk)

section Claims
variable {id : Hash}

/-- Claiming succeeds when every key is new for `id`. -/
theorem addClaims_true_iff : ∀ {ks : List Hash} {claims : Finset (Hash × Hash)},
    (addClaims id true claims ks).1 = true ↔ ks.Nodup ∧ ∀ k ∈ ks, (k, id) ∉ claims
  | [], claims => by simp [addClaims]
  | k :: ks, claims => by
    rw [addClaims, if_neg (by simp)]
    by_cases hk : (k, id) ∈ claims
    · rw [if_pos hk]
      simp [hk]
    · rw [if_neg hk, addClaims_true_iff, nodup_cons]
      simp only [Finset.mem_insert, Prod.mk.injEq, and_true, not_or, mem_cons, forall_eq_or_imp]
      constructor
      · intro ⟨hnd, hnew⟩
        exact ⟨⟨fun hmem => (hnew k hmem).1 rfl, hnd⟩, hk, fun j hj => (hnew j hj).2⟩
      · intro ⟨⟨hnot, hnd⟩, _, hnew⟩
        exact ⟨hnd, fun j hj => ⟨fun e => hnot (e ▸ hj), hnew j hj⟩⟩

/-- What is claimed on the way, when `seen` is what `id` held before. -/
theorem mem_addClaims : ∀ {ks seen : List Hash} {claims : Finset (Hash × Hash)},
    (∀ k ∈ ks, (k, id) ∈ claims ↔ k ∈ seen) → ∀ x, x ∈ (addClaims id true claims ks).2 ↔
      x ∈ claims ∨ x.2 = id ∧ x.1 ∈ leadingRun seen ks
  | [], seen, claims, _, x => by simp [addClaims, leadingRun]
  | k :: ks, seen, claims, hseen, x => by
    rw [addClaims, if_neg (by simp), leadingRun]
    by_cases hk : k ∈ seen
    · rw [if_pos ((hseen k (by simp)).mpr hk), if_pos hk]
      simp
    · rw [if_neg fun h => hk ((hseen k (by simp)).mp h), if_neg hk, @mem_addClaims ks (k :: seen)]
      · rw [Finset.mem_insert, mem_cons]
        constructor
        · intro hx
          rcases hx with (rfl | hx) | ⟨hid, hx⟩
          · exact .inr ⟨rfl, .inl rfl⟩
          · exact .inl hx
          · exact .inr ⟨hid, .inr hx⟩
        · intro hx
          rcases hx with hx | ⟨hid, hx | hx⟩
          · exact .inl (.inr hx)
          · exact .inl (.inl (Prod.ext hx hid))
          · exact .inr ⟨hid, hx⟩
      · intro j hj
        rw [Finset.mem_insert, mem_cons, hseen j (by simp [hj])]
        simp

/-- Where nobody else claims the keys, a relayed transaction is treated like one that
comes with a block. -/
theorem addClaims_relayed : ∀ {ks : List Hash} {claims : Finset (Hash × Hash)},
    (∀ k ∈ ks, claimed claims k = true → (k, id) ∈ claims) → addClaims id false claims ks = addClaims id true claims ks
  | [], _, _ => rfl
  | k :: ks, claims, h => by
    rw [addClaims, addClaims]
    by_cases hk : claimed claims k = true
    · rw [if_pos (by simp [hk]), if_neg (by simp), if_pos (h k (by simp) hk)]
    · have hnot : (k, id) ∉ claims := fun hmem => hk (decide_eq_true ⟨(k, id), hmem, rfl⟩)
      rw [if_neg (by simp [hk]), if_neg hnot, if_neg (by simp), if_neg hnot]
      apply addClaims_relayed
      intro j hj hclaimed
      rw [Finset.mem_insert]
      by_cases hjk : j = k
      · exact .inl (by rw [hjk])
      · refine .inr (h j (by simp [hj]) ?_)
        simp only [claimed, Finset.mem_insert, decide_eq_true_eq] at hclaimed ⊢
        obtain ⟨x, rfl | hx, he⟩ := hclaimed
        · exact absurd he.symm hjk
        · exact ⟨x, hx, he⟩

/-- Giving back in the same order: all claims of `id` go, and nothing else. The return
value says whether no key was repeated. -/
theorem removeClaims_spec : ∀ {ks seen : List Hash} {claims : Finset (Hash × Hash)},
    (∀ k, (k, id) ∈ claims ↔ k ∈ leadingRun seen ks) →
      ((removeClaims id claims ks).1 = true ↔ ks.Nodup ∧ ∀ k ∈ ks, k ∉ seen) ∧
      ∀ x, x ∈ (removeClaims id claims ks).2 ↔ x ∈ claims ∧ x.2 ≠ id
  | [], seen, claims, h => by
    refine ⟨by simp [removeClaims], fun x => ?_⟩
    have hnone : x ∈ claims → x.2 ≠ id := by
      intro hx he
      have := (h x.1).mp (by rw [← he]; exact hx)
      cases this
    rw [removeClaims]
    exact ⟨fun hx => ⟨hx, hnone hx⟩, fun hx => hx.1⟩
  | k :: ks, seen, claims, h => by
    rw [removeClaims]
    by_cases hk : k ∈ seen
    · have hnone : ∀ j, (j, id) ∉ claims := by
        intro j hj
        have := (h j).mp hj
        rw [leadingRun, if_pos hk] at this
        cases this
      rw [if_pos (hnone k)]
      refine ⟨by simp [hk], fun x => ⟨fun hx => ⟨hx, ?_⟩, fun hx => hx.1⟩⟩
      exact fun he => hnone x.1 (by rw [← he]; exact hx)
    · have hrun : leadingRun seen (k :: ks) = k :: leadingRun (k :: seen) ks := by rw [leadingRun, if_neg hk]
      rw [if_neg (by rw [not_not, h, hrun]; simp)]
      have herase : ∀ j, (j, id) ∈ claims.erase (k, id) ↔ j ∈ leadingRun (k :: seen) ks := by
        intro j
        rw [Finset.mem_erase, h, hrun, mem_cons, Ne, Prod.mk.injEq, and_iff_left rfl]
        constructor
        · exact fun ⟨hne, hj⟩ => hj.resolve_left hne
        · exact fun hj => ⟨fun e => leadingRun_fresh hj (by simp [e]), .inr hj⟩
      obtain ⟨hret, hmem⟩ := removeClaims_spec herase
      refine ⟨?_, fun x => ?_⟩
      · rw [hret, nodup_cons]
        simp only [mem_cons, not_or, forall_eq_or_imp]
        constructor
        · intro ⟨hnd, hnew⟩
          exact ⟨⟨fun hin => (hnew k hin).1 rfl, hnd⟩, hk, fun j hj => (hnew j hj).2⟩
        · intro ⟨⟨hnot, hnd⟩, _, hnew⟩
          exact ⟨hnd, fun j hj => ⟨fun e => hnot (e ▸ hj), hnew j hj⟩⟩
      · rw [hmem, Finset.mem_erase]
        exact ⟨fun ⟨⟨_, hx⟩, hne⟩ => ⟨hx, hne⟩, fun ⟨hx, hne⟩ => ⟨⟨fun e => hne (by rw [e]), hx⟩, hne⟩⟩

end Claims

/-! ## What the tables hold -/

/-- The tags a transaction is entered under. -/
def imageTags (P : Primitives) (d : TransactionDetails) : List Hash := leadingRun [] (spendImages P d.tx)

/-- The accounts it is entered under: none if it repeats a tag. -/
def accountTags (P : Primitives) (d : TransactionDetails) : List Hash :=
  if (spendImages P d.tx).Nodup then (getPqAccountRegistrationId P d.tx).toList else []

/-- Whether it is counted as a free registration. -/
def countedFreeReg (P : Primitives) (d : TransactionDetails) : Bool :=
  decide (spendImages P d.tx).Nodup && isFreeReg d.tx

structure Indexed (P : Primitives) (p : Pool) : Prop where
  images : p.transactions.TaggedBy (imageTags P) p.spentKeyImages
  accounts : p.transactions.TaggedBy (accountTags P) p.pqAccountRegistrations
  freeRegs : p.freeRegPoolCount = p.transactions.entries.countP (countedFreeReg P)

variable {P : Primitives} {p : Pool}

theorem Indexed.empty (P : Primitives) : Indexed P .empty := by
  refine ⟨?_, ?_, rfl⟩
  · intro k id
    simp [Pool.empty, MultiIndex.empty]
  · intro k id
    simp [Pool.empty, MultiIndex.empty]

variable {p' : Pool}

variable (h : Indexed P p)

include h in
/-- The tables are all that matters. -/
theorem Indexed.of_eq (ht : p'.transactions = p.transactions)
    (hi : p'.spentKeyImages = p.spentKeyImages) (ha : p'.pqAccountRegistrations = p.pqAccountRegistrations)
    (hf : p'.freeRegPoolCount = p.freeRegPoolCount) : Indexed P p' :=
  ⟨by rw [ht, hi]; exact h.images, by rw [ht, ha]; exact h.accounts, by rw [ht, hf]; exact h.freeRegs⟩

/-- What entering a new transaction does to the tables. -/
structure Entered (P : Primitives) (p p' : Pool) (id : Hash) (tx : Transaction) : Prop where
  images : ∀ x, x ∈ p'.spentKeyImages ↔ x ∈ p.spentKeyImages ∨ x.2 = id ∧ x.1 ∈ leadingRun [] (spendImages P tx)
  accounts : ∀ x, x ∈ p'.pqAccountRegistrations ↔ x ∈ p.pqAccountRegistrations ∨
    x.2 = id ∧ (spendImages P tx).Nodup ∧ getPqAccountRegistrationId P tx = some x.1
  freeRegs : p'.freeRegPoolCount =
    if (spendImages P tx).Nodup ∧ isFreeReg tx = true then p.freeRegPoolCount + 1 else p.freeRegPoolCount

variable {tx : Transaction}

/-- Where nobody claims what a relayed transaction claims, it is entered like one that
comes with a block. -/
theorem addTransactionInputs_relayed {id : Hash} (hunspent : p.haveSpentInputs P tx = false)
    (hunregistered : p.havePqAccountRegistration P tx = false) :
    p.addTransactionInputs P id tx false = p.addTransactionInputs P id tx true := by
  have himages : addClaims id false p.spentKeyImages (spendImages P tx) =
      addClaims id true p.spentKeyImages (spendImages P tx) := by
    apply addClaims_relayed
    intro k hk hclaimed
    exact absurd hclaimed (List.any_eq_false.mp hunspent k hk)
  have haccounts : addClaims id false p.pqAccountRegistrations (getPqAccountRegistrationId P tx).toList =
      addClaims id true p.pqAccountRegistrations (getPqAccountRegistrationId P tx).toList := by
    apply addClaims_relayed
    intro k hk hclaimed
    rw [Option.mem_toList] at hk
    rw [Pool.havePqAccountRegistration, hk, Option.any_some] at hunregistered
    rw [hunregistered] at hclaimed
    cases hclaimed
  unfold Pool.addTransactionInputs
  rw [himages, haccounts]

theorem nodup_toList (o : Option Hash) : o.toList.Nodup := by cases o <;> simp

/-- No tag is repeated, and `id` claims none of the keys yet. -/
structure FreshClaims (P : Primitives) (p : Pool) (id : Hash) (tx : Transaction) : Prop where
  nodup : (spendImages P tx).Nodup
  images : ∀ k ∈ spendImages P tx, (k, id) ∉ p.spentKeyImages
  accounts : ∀ a, getPqAccountRegistrationId P tx = some a → (a, id) ∉ p.pqAccountRegistrations

theorem addTransactionInputs_true_iff {id : Hash} :
    (p.addTransactionInputs P id tx true).1 = true ↔ FreshClaims P p id tx := by
  have himages := @addClaims_true_iff id (spendImages P tx) p.spentKeyImages
  have haccounts := @addClaims_true_iff id (getPqAccountRegistrationId P tx).toList p.pqAccountRegistrations
  rw [and_iff_right (nodup_toList _)] at haccounts
  simp only [Option.mem_toList] at haccounts
  unfold Pool.addTransactionInputs
  split
  · rename_i heq
    rw [heq] at himages
    refine ⟨by simp, fun h => ?_⟩
    simpa using himages.mpr ⟨h.nodup, h.images⟩
  · rename_i heq
    rw [heq] at himages
    obtain ⟨hnd, hnew⟩ := himages.mp rfl
    split
    · rename_i heq'
      rw [heq'] at haccounts
      refine ⟨by simp, fun h => ?_⟩
      simpa using haccounts.mpr h.accounts
    · rename_i heq'
      rw [heq'] at haccounts
      exact ⟨fun _ => ⟨hnd, hnew, haccounts.mp rfl⟩, fun _ => rfl⟩

theorem addTransactionInputs_entered {id : Hash} (hi : ∀ k, (k, id) ∉ p.spentKeyImages)
    (ha : ∀ k, (k, id) ∉ p.pqAccountRegistrations) : Entered P p (p.addTransactionInputs P id tx true).2 id tx := by
  have himages := @mem_addClaims id (spendImages P tx) [] p.spentKeyImages (by simp [hi])
  have haccounts := @mem_addClaims id (getPqAccountRegistrationId P tx).toList [] p.pqAccountRegistrations
    (by simp [ha])
  rw [leadingRun_eq_self (nodup_toList _) (by simp)] at haccounts
  have hret : (p.addTransactionInputs P id tx true).1 = true ↔ (spendImages P tx).Nodup :=
    addTransactionInputs_true_iff.trans ⟨fun h => h.nodup, fun h => ⟨h, fun k _ => hi k, fun a _ => ha a⟩⟩
  unfold Pool.addTransactionInputs at hret ⊢
  split at hret
  · rename_i heq
    have hnd : ¬ (spendImages P tx).Nodup := fun h => by simpa using hret.mpr h
    rw [heq] at himages
    exact ⟨himages, by simp [hnd], by simp [hnd]⟩
  · rename_i heq
    have hnd : (spendImages P tx).Nodup := ((addClaims_true_iff).mp (by rw [heq])).1
    rw [heq] at himages
    split at hret
    · simp [hnd] at hret
    · rename_i heq'
      rw [heq'] at haccounts
      refine ⟨himages, ?_, by simp [hnd]⟩
      intro x
      simp only [haccounts, hnd, true_and, Option.mem_toList]

include h

/-- Filing a transaction under a new id. -/
theorem Indexed.file {c : MultiIndex TransactionDetails.id} {txd : TransactionDetails}
    (hc : p.transactions.insert transactionPriority txd = some c) (ht : p'.transactions = c)
    (hentered : Entered P p p' txd.id txd.tx) : Indexed P p' := by
  refine ⟨?_, ?_, ?_⟩
  · rw [ht]
    exact h.images.insert hc hentered.images
  · rw [ht]
    apply h.accounts.insert hc
    intro x
    rw [hentered.accounts, accountTags]
    split
    · rename_i hnd
      simp [hnd]
    · rename_i hnd
      simp [hnd]
  · rw [ht, (MultiIndex.perm_insert hc).countP_eq, countP_cons, hentered.freeRegs, h.freeRegs, countedFreeReg]
    simp only [Bool.and_eq_true, decide_eq_true_eq]
    split
    · rfl
    · rfl

variable {E : Env}

omit h in
/-- `add_tx` keeps the tables in order, whatever it returns. -/
theorem Indexed.addTx (h : Indexed E.P p) (db : Db) (sizeLimit now : Nat) (tx : Transaction) (id : Hash)
    (blobSize : Nat) (kept : Bool) : Indexed E.P (addTx E db sizeLimit now p tx id blobSize kept).2 := by
  generalize hr : L4.addTx E db sizeLimit now p tx id blobSize kept = r
  have hadded := addTx_added E db sizeLimit now p tx id blobSize kept
  rw [hr] at hadded
  cases hadded with
  | refused => exact h
  | forgotten => exact h
  | @filed txd c _ hrelay hid htx _ _ hc =>
    have hfree : p.transactions.find id = none := by
      rw [← hid]
      exact MultiIndex.insert_isSome.mp (Option.isSome_iff_exists.mpr ⟨c, hc⟩)
    have hkept : { p with transactions := c }.addTransactionInputs E.P id tx kept =
        { p with transactions := c }.addTransactionInputs E.P id tx true := by
      cases kept with
      | true => rfl
      | false => exact addTransactionInputs_relayed (hrelay rfl).unspent (hrelay rfl).unregistered
    rw [hkept]
    have hentered := @addTransactionInputs_entered E.P { p with transactions := c } tx id (h.images.not_mem hfree)
      (h.accounts.not_mem hfree)
    refine h.file hc (addTransactionInputs_frame E.P _ id tx true).1 ?_
    rw [hid, htx]
    exact ⟨hentered.images, hentered.accounts, hentered.freeRegs⟩

/-! ### Removal -/

theorem Indexed.removeTransaction {d : TransactionDetails} (hd : d ∈ p.transactions.entries) :
    Indexed P (p.removeTransaction P d) := by
  obtain ⟨hret, himages⟩ := @removeClaims_spec d.id (spendImages P d.tx) [] p.spentKeyImages
    (fun k => h.images.mem hd)
  have hcount := (MultiIndex.perm_erase hd).countP_eq (countedFreeReg P)
  rw [countP_cons, ← h.freeRegs] at hcount
  have haccounts := fun k => h.accounts.mem hd (t := k)
  unfold Pool.removeTransaction Pool.removeTransactionInputs
  generalize removeClaims d.id p.spentKeyImages (spendImages P d.tx) = r at hret himages
  obtain ⟨b, images⟩ := r
  cases b with
  | false =>
    have hnd : ¬ (spendImages P d.tx).Nodup := fun hnd => by simpa using hret.mpr ⟨hnd, by simp⟩
    have hnone : accountTags P d = [] := by rw [accountTags, if_neg hnd]
    refine ⟨h.images.erase himages, h.accounts.erase ?_, ?_⟩
    · intro x
      refine ⟨fun hx => ⟨hx, fun he => ?_⟩, fun hx => hx.1⟩
      have := (haccounts x.1).mp (by rw [← he]; exact hx)
      rw [hnone] at this
      cases this
    · simpa [countedFreeReg, hnd] using hcount
  | true =>
    have hnd : (spendImages P d.tx).Nodup := (hret.mp rfl).1
    simp only [accountTags, if_pos hnd] at haccounts
    rw [← @leadingRun_eq_self _ [] (nodup_toList (getPqAccountRegistrationId P d.tx)) (by simp)] at haccounts
    obtain ⟨hret', haccounts'⟩ := removeClaims_spec haccounts
    generalize removeClaims d.id p.pqAccountRegistrations (getPqAccountRegistrationId P d.tx).toList = r
      at hret' haccounts'
    obtain ⟨b', accounts⟩ := r
    obtain rfl : b' = true := hret'.mpr ⟨nodup_toList _, by simp⟩
    refine ⟨h.images.erase himages, h.accounts.erase haccounts', ?_⟩
    simp only [countedFreeReg, hnd, decide_true, Bool.true_and] at hcount ⊢
    split
    · rename_i hfree
      rw [if_pos hfree] at hcount
      omega
    · rename_i hfree
      rw [if_neg hfree] at hcount
      omega

/-- Removing entries of the pool one after the other. -/
theorem Indexed.removeAll {remove : Pool → TransactionDetails → Pool}
    (hremove : ∀ p d, Indexed P p → d ∈ p.transactions.entries →
      Indexed P (remove p d) ∧ (remove p d).transactions = p.transactions.erase d.id) {l : List TransactionDetails}
    (hnd : (l.map TransactionDetails.id).Nodup) (hl : ∀ d ∈ l, d ∈ p.transactions.entries) :
    Indexed P (l.foldl remove p) := by
  induction l generalizing p with
  | nil => exact h
  | cons d l ih =>
    rw [map_cons, nodup_cons] at hnd
    obtain ⟨hindexed, herase⟩ := hremove p d h (hl d (by simp))
    apply ih hindexed hnd.2
    intro d' hd'
    rw [herase, MultiIndex.mem_erase]
    exact ⟨hl d' (by simp [hd']), fun he => hnd.1 (he ▸ List.mem_map_of_mem hd')⟩

theorem Indexed.removeStale (db : Db) : Indexed P (removeStaleAccountRegistrations P db p) :=
  h.removeAll (fun p d hp hd => ⟨hp.removeTransaction hd, removeTransaction_transactions P p d⟩)
    (p.transactions.unique.sublist (filter_sublist.map _)) fun _ hd => (mem_filter.mp hd).1

theorem Indexed.removeExpired (now : Nat) : Indexed P (removeExpiredTransactions P now p) := by
  have h' : Indexed P { p with
      recentlyDeletedTransactions := p.recentlyDeletedTransactions.filter fun x =>
        ¬ now - x.2 > numberOfPeriodsToForgetTxDeletedFromPool * mempoolTxLiveTime } := h.of_eq rfl rfl rfl rfl
  refine h'.removeAll ?_ (p.transactions.unique.sublist (filter_sublist.map _))
    fun _ hd => (mem_filter.mp hd).1
  intro p d hp hd
  have hp' : Indexed P { p with
      recentlyDeletedTransactions := rememberDeleted now p.recentlyDeletedTransactions d.id } :=
    hp.of_eq rfl rfl rfl rfl
  exact ⟨hp'.removeTransaction hd, removeTransaction_transactions P _ d⟩

theorem Indexed.takeTx {id : Hash} (htake : takeTx P p id = some (tx, p')) : Indexed P p' := by
  obtain ⟨d, hd, he⟩ := Option.map_eq_some_iff.mp htake
  cases he
  exact h.removeTransaction (MultiIndex.find_eq_some.mp hd).1

/-! ### Cached answers -/

/-- New cached blocks for an entry. -/
theorem Indexed.setCheckInfo (id : Hash) (info : TransactionCheckInfo) (validated : Finset Hash) :
    Indexed P { p with
      transactions := p.transactions.modify id (setCheckInfo info) (setCheckInfo_id info)
      validatedTransactions := validated } := by
  have hid := setCheckInfo_id info
  refine ⟨h.images.modify id hid fun _ => rfl, h.accounts.modify id hid fun _ => rfl, ?_⟩
  rw [h.freeRegs]
  exact (MultiIndex.countP_modify _ id hid fun _ => rfl).symm

omit h

theorem FillTurn.indexed {db : Db} {s s' : TemplateScan} {txd : TransactionDetails}
    (h : FillTurn E db s txd s') (hs : Indexed E.P s.pool) : Indexed E.P s'.pool := by
  cases h with
  | passed => exact hs
  | looked _ _ hpool _ =>
    rw [hpool]
    exact hs.setCheckInfo _ _ _

theorem Indexed.fillBlockTemplate (h : Indexed E.P p) (db : Db) (medianSize maxCumulativeSize : Nat) :
    Indexed E.P (fillBlockTemplate E db p medianSize maxCumulativeSize).pool :=
  foldlRecOn (motive := fun s : TemplateScan => Indexed E.P s.pool) _ _ h fun s hs d _ =>
    (fillTurn_cases E db medianSize _ s d).indexed hs

/-! ## Runs of the pool -/

/-- The calls on a pool, each at a chain and a time of its own. `admits` restricts what
is handed to `add_tx`. -/
inductive PoolOp (E : Env) (admits : Transaction → Bool → Prop) : Pool → Pool → Prop where
  | add {p : Pool} (db : Db) (sizeLimit now : Nat) (tx : Transaction) (id : Hash) (blobSize : Nat)
      (keptByBlock : Bool) :
      admits tx keptByBlock → PoolOp E admits p (addTx E db sizeLimit now p tx id blobSize keptByBlock).2
  | take {p p' : Pool} {tx : Transaction} (id : Hash) : takeTx E.P p id = some (tx, p') → PoolOp E admits p p'
  | stale {p : Pool} (db : Db) : PoolOp E admits p (removeStaleAccountRegistrations E.P db p)
  | expire {p : Pool} (now : Nat) : PoolOp E admits p (removeExpiredTransactions E.P now p)
  | template {p : Pool} (db : Db) (medianSize maxCumulativeSize : Nat) :
      PoolOp E admits p (fillBlockTemplate E db p medianSize maxCumulativeSize).pool
  | difference {p : Pool} (db : Db) : PoolOp E admits p (getDifference E db p)

/-- A pool is left in its file and read back at some later time. -/
def Restarts (E : Env) (p p' : Pool) : Prop := ∃ now f, f.Stores p ∧ p' = initPool E.P now (some f)

def poolLts (E : Env) (admits : Transaction → Bool → Prop) : Lts Pool where
  Init p := p = .empty
  Step p p' := PoolOp E admits p p' ∨ Restarts E p p'

theorem PoolOp.indexed {admits : Transaction → Bool → Prop} (hop : PoolOp E admits p p') (h : Indexed E.P p) :
    Indexed E.P p' := by
  cases hop with
  | add db sizeLimit now tx id blobSize kept => exact h.addTx db sizeLimit now tx id blobSize kept
  | take id htake => exact h.takeTx htake
  | stale db => exact h.removeStale db
  | expire now => exact h.removeExpired now
  | template db medianSize maxCumulativeSize => exact h.fillBlockTemplate db medianSize maxCumulativeSize
  | difference db => exact h.of_eq rfl rfl rfl rfl

/-! ## Distinct tags -/

/-- No transaction that is held repeats a tag. -/
def DistinctTags (P : Primitives) (view : View) : Prop := ∀ id tx, view id = some tx → (spendImages P tx).Nodup

/-- What a transaction must show if it comes with a block. -/
def distinctIfKept (P : Primitives) (tx : Transaction) (keptByBlock : Bool) : Prop :=
  keptByBlock = true → (spendImages P tx).Nodup

theorem spendImages_nil (htypes : checkInputsTypesSupported tx.toTransactionPrefix = true)
    (htype : isPqTransfer tx.txType = false) : spendImages P tx = [] := by
  rw [spendImages, map_eq_nil_iff, TransactionPrefix.pqInputs, filterMap_eq_nil_iff]
  intro t ht
  unfold checkInputsTypesSupported at htypes
  rw [List.all_eq_true] at htypes
  simpa [htype] using htypes t ht

/-- A transaction whose inputs check repeats no tag, and only transfers have any. -/
theorem nodup_of_checked {db : Db} (hadmissible : Admissible tx) (h : (checkTransactionInputs E db tx none).isSome) :
    (spendImages E.P tx).Nodup := by
  obtain ⟨m, hm⟩ := Option.isSome_iff_exists.mp h
  have hnil : isPqTransfer tx.txType = false → (spendImages E.P tx).Nodup := by
    intro htype
    rw [spendImages_nil hadmissible.types htype]
    exact nodup_nil
  rcases (TxInputsOk.of_some hm).2 with ⟨fee, -, hok⟩ | htype | htype
  · exact hok.nodup
  · exact hnil (by rw [htype]; decide)
  · exact hnil (by rw [htype]; decide)

theorem DistinctTags.sub {view view' : View} (h : DistinctTags P view) (hsub : Sub view' view) : DistinctTags P view' :=
  fun id tx hv => h id tx (hsub id tx hv)

theorem DistinctTags.put {view : View} (h : DistinctTags P view) {id : Hash} (htx : (spendImages P tx).Nodup) :
    DistinctTags P (view.put id tx) := by
  intro k t hv
  rw [Table.put_apply] at hv
  split at hv
  · cases hv
    exact htx
  · exact h k t hv

theorem DistinctTags.addTx (h : DistinctTags E.P p.view) (db : Db) (sizeLimit now : Nat)
    (id : Hash) (blobSize : Nat) {kept : Bool} (hkept : distinctIfKept E.P tx kept) :
    DistinctTags E.P (addTx E db sizeLimit now p tx id blobSize kept).2.view := by
  generalize hr : L4.addTx E db sizeLimit now p tx id blobSize kept = r
  have hadded := addTx_added E db sizeLimit now p tx id blobSize kept
  rw [hr] at hadded
  cases hadded with
  | refused => exact h
  | forgotten => exact h
  | @filed txd c hadmissible hrelay hid htx _ _ hc =>
    rw [(view_of_insert hc id tx kept).2, htx]
    apply h.put
    cases kept with
    | true => exact hkept rfl
    | false => exact nodup_of_checked hadmissible (checkTransactionInputsMaxUsed_true (hrelay rfl).checked)

theorem PoolOp.distinct (hop : PoolOp E (distinctIfKept E.P) p p') (h : DistinctTags E.P p.view) :
    DistinctTags E.P p'.view := by
  cases hop with
  | add db sizeLimit now tx id blobSize kept hkept => exact h.addTx db sizeLimit now id blobSize hkept
  | take id htake =>
    rw [(takeTx_view htake).2.1]
    intro k tx hv
    rw [Table.remove_apply] at hv
    split at hv
    · cases hv
    · exact h k tx hv
  | stale db => exact h.sub (removeStaleAccountRegistrations_sub E.P db p).1
  | expire now => exact h.sub (removeExpiredTransactions_sub E.P now p).1
  | template db medianSize maxCumulativeSize =>
    rw [fillBlockTemplate_view]
    exact h
  | difference db => exact h

/-! ## Exactness -/

/-- The tables say exactly what the transactions of the pool say. -/
structure IndicesExact (P : Primitives) (p : Pool) : Prop where
  images : ∀ nullifier id, (nullifier, id) ∈ p.spentKeyImages ↔
    ∃ d ∈ p.transactions.entries, d.id = id ∧ nullifier ∈ spendImages P d.tx
  accounts : ∀ accountId id, (accountId, id) ∈ p.pqAccountRegistrations ↔
    ∃ d ∈ p.transactions.entries, d.id = id ∧ getPqAccountRegistrationId P d.tx = some accountId
  freeRegs : p.freeRegPoolCount = p.transactions.entries.countP fun d => isFreeReg d.tx

theorem DistinctTags.nodup (h : DistinctTags P p.view) {d : TransactionDetails} (hd : d ∈ p.transactions.entries) :
    (spendImages P d.tx).Nodup :=
  h d.id d.tx (view_eq_some.mpr ⟨d, hd, rfl, rfl⟩)

/-- Where no tag is repeated, `Indexed` and `IndicesExact` are the same. -/
theorem indexed_iff_exact (h : DistinctTags P p.view) : Indexed P p ↔ IndicesExact P p := by
  have himages : ∀ k id, (∃ d ∈ p.transactions.entries, d.id = id ∧ k ∈ imageTags P d) ↔
      ∃ d ∈ p.transactions.entries, d.id = id ∧ k ∈ spendImages P d.tx := by
    intro k id
    refine exists_congr fun d => and_congr_right fun hd => ?_
    rw [imageTags, leadingRun_eq_self (h.nodup hd) (by simp)]
  have haccounts : ∀ k id, (∃ d ∈ p.transactions.entries, d.id = id ∧ k ∈ accountTags P d) ↔
      ∃ d ∈ p.transactions.entries, d.id = id ∧ getPqAccountRegistrationId P d.tx = some k := by
    intro k id
    refine exists_congr fun d => and_congr_right fun hd => ?_
    rw [accountTags, if_pos (h.nodup hd), Option.mem_toList]
  have hcount : p.transactions.entries.countP (countedFreeReg P) =
      p.transactions.entries.countP fun d => isFreeReg d.tx := by
    apply countP_congr
    intro d hd
    simp [countedFreeReg, h.nodup hd]
  constructor
  · exact fun hi => ⟨fun k id => (hi.images k id).trans (himages k id),
      fun k id => (hi.accounts k id).trans (haccounts k id), hi.freeRegs.trans hcount⟩
  · exact fun he => ⟨fun k id => (he.images k id).trans (himages k id).symm,
      fun k id => (he.accounts k id).trans (haccounts k id).symm, he.freeRegs.trans hcount.symm⟩

/-! ### Restarts -/

/-- What the loop of `buildIndices` has entered after the entries `l`. -/
theorem buildTurns_spec : ∀ (l : List TransactionDetails) (p : Pool),
    (l.foldl (buildTurn P) p).transactions = p.transactions ∧
      (l.foldl (buildTurn P) p).spentKeyImages = p.spentKeyImages ∧
      (∀ x, x ∈ (l.foldl (buildTurn P) p).pqAccountRegistrations ↔ x ∈ p.pqAccountRegistrations ∨
        ∃ d ∈ l, d.id = x.2 ∧ getPqAccountRegistrationId P d.tx = some x.1) ∧
      (l.foldl (buildTurn P) p).freeRegPoolCount = p.freeRegPoolCount + l.countP fun d => isFreeReg d.tx
  | [], p => by simp
  | d :: l, p => by
    obtain ⟨ht, hi, ha, hf⟩ := buildTurns_spec l (buildTurn P p d)
    rw [foldl_cons]
    refine ⟨ht, hi, ?_, ?_⟩
    · intro x
      have hturn : x ∈ (buildTurn P p d).pqAccountRegistrations ↔
          x ∈ p.pqAccountRegistrations ∨ d.id = x.2 ∧ getPqAccountRegistrationId P d.tx = some x.1 := by
        rw [buildTurn]
        cases getPqAccountRegistrationId P d.tx with
        | none => simp
        | some a =>
          simp only [Finset.mem_insert, Prod.ext_iff, Option.some.injEq]
          rw [or_comm, and_comm, eq_comm (a := x.2), eq_comm (a := x.1)]
      rw [ha, hturn, or_assoc]
      simp only [mem_cons, exists_eq_or_imp]
    · rw [hf, countP_cons, buildTurn]
      simp only
      split
      · omega
      · omega

theorem buildIndices_spec (p : Pool) : (buildIndices P p).transactions = p.transactions ∧
    (buildIndices P p).spentKeyImages = p.spentKeyImages ∧ (∀ x, x ∈ (buildIndices P p).pqAccountRegistrations ↔
      ∃ d ∈ p.transactions.entries, d.id = x.2 ∧ getPqAccountRegistrationId P d.tx = some x.1) ∧
    (buildIndices P p).freeRegPoolCount = p.transactions.entries.countP fun d => isFreeReg d.tx := by
  obtain ⟨ht, hi, ha, hf⟩ := buildTurns_spec (P := P) p.transactions.entries
    { p with pqAccountRegistrations := ∅, freeRegPoolCount := 0 }
  exact ⟨ht, hi, fun x => by simpa [buildIndices] using ha x, by simpa [buildIndices] using hf⟩

/-- A pool with exact tables comes back from its file with exact tables. -/
theorem Restarts.exact (hre : Restarts E p p') (hd : DistinctTags E.P p.view) (h : IndicesExact E.P p) :
    DistinctTags E.P p'.view ∧ IndicesExact E.P p' := by
  obtain ⟨now, f, hstores, rfl⟩ := hre
  obtain ⟨ht, hi, ha, hf⟩ := buildIndices_spec (P := E.P) f.read
  have hperm : (buildIndices E.P f.read).transactions.entries.Perm p.transactions.entries := by
    rw [ht]
    have hkeys : (f.transactions.map TransactionDetails.id).Nodup :=
      ((hstores.transactions.map _).nodup_iff).mpr p.transactions.unique
    exact (MultiIndex.perm_ofList transactionPriority hkeys).trans hstores.transactions
  have hread : DistinctTags E.P (buildIndices E.P f.read).view := by
    intro id tx hv
    obtain ⟨d, hd', hid, htx⟩ := view_eq_some.mp hv
    exact hd id tx (view_eq_some.mpr ⟨d, hperm.mem_iff.mp hd', hid, htx⟩)
  have hexact : IndicesExact E.P (buildIndices E.P f.read) := by
    refine ⟨?_, ?_, ?_⟩
    · intro k id
      have hfile : f.read.spentKeyImages = p.spentKeyImages := hstores.spentKeyImages
      rw [hi, hfile, h.images]
      simp only [hperm.mem_iff]
    · intro k id
      rw [ha, ht]
    · rw [hf, ht]
  have hexpired := (removeExpiredTransactions_sub E.P now (buildIndices E.P f.read)).1
  exact ⟨hread.sub hexpired, (indexed_iff_exact (hread.sub hexpired)).mp
    (((indexed_iff_exact hread).mpr hexact).removeExpired now)⟩

/-! ### Every run -/

theorem indices_exact {E : Env} (h : (poolLts E (distinctIfKept E.P)).Reachable p) : IndicesExact E.P p := by
  have hinductive : (poolLts E (distinctIfKept E.P)).Inductive fun p =>
      DistinctTags E.P p.view ∧ IndicesExact E.P p := by
    refine ⟨?_, ?_⟩
    · intro p hp
      subst hp
      have hd : DistinctTags E.P Pool.empty.view := by
        intro id tx hv
        cases hv
      exact ⟨hd, (indexed_iff_exact hd).mp (.empty E.P)⟩
    · intro p p' ⟨hd, hexact⟩ hstep
      rcases hstep with hop | hre
      · have hd' := hop.distinct hd
        exact ⟨hd', (indexed_iff_exact hd').mp (hop.indexed ((indexed_iff_exact hd).mpr hexact))⟩
      · exact hre.exact hd hexact
  exact (hinductive.reachable h).2

/-- A transfer with two inputs. -/
def toyTwoInputs : Transaction := toyTransfer [(nullHash, toyRho 0), (nullHash, toyRho 1)] 5

/-- The same with its first input twice. -/
def toyRepeating : Transaction := toyTransfer [(nullHash, toyRho 0), (nullHash, toyRho 0), (nullHash, toyRho 1)] 5

/-- The pool after a transaction came with a block, under an id that plays no part. -/
def toyFiled (tx : Transaction) : Pool := (addTx (toyEnv .none) .empty 0 0 .empty tx nullHash 0 true).2

theorem toyFiled_run {admits : Transaction → Bool → Prop} (h : admits tx true) :
    (poolLts (toyEnv .none) admits).Reachable (toyFiled tx) :=
  .step (.init rfl) (.inl (.add _ _ _ _ _ _ _ h))

theorem indices_exact_toyTwoInputs :
    distinctIfKept (toyEnv .none).P toyTwoInputs true ∧ (toyFiled toyTwoInputs).spentKeyImages.card = 2 ∧
      IndicesExact (toyEnv .none).P (toyFiled toyTwoInputs) := by
  have hnodup : (spendImages (toyEnv .none).P toyTwoInputs).Nodup := by decide +kernel
  have hdistinct : distinctIfKept (toyEnv .none).P toyTwoInputs true := fun _ => hnodup
  exact ⟨hdistinct, by decide +kernel, indices_exact (toyFiled_run hdistinct)⟩

/-- It passes the relay gate, and is filed: the tag of its last input is not in the table. -/
theorem repeated_tag_inexact :
    ∃ p, (poolLts (toyEnv .none) fun tx _ => Gated (toyEnv .none).P tx).Reachable p ∧
      ¬ IndicesExact (toyEnv .none).P p := by
  have hgated : Gated (toyEnv .none).P toyRepeating := ⟨true, by decide +kernel⟩
  have hmissing : ∃ d ∈ (toyFiled toyRepeating).transactions.entries, ∃ n ∈ spendImages (toyEnv .none).P d.tx,
      (n, d.id) ∉ (toyFiled toyRepeating).spentKeyImages := by decide +kernel
  have hrun : (poolLts (toyEnv .none) fun tx _ => Gated (toyEnv .none).P tx).Reachable (toyFiled toyRepeating) :=
    toyFiled_run hgated
  generalize toyFiled toyRepeating = p at hmissing hrun
  obtain ⟨d, hd, n, hn, hnot⟩ := hmissing
  refine ⟨p, hrun, ?_⟩
  intro h
  exact hnot ((h.images n d.id).mpr ⟨d, hd, rfl, hn⟩)

/-! ## Refusals -/

/-- A refusal leaves the pool as it was, except of a transaction that comes with a block
and whose claims are not fresh: that one is filed and then refused. -/
theorem addTx_unchanged_iff (E : Env) (db : Db) (sizeLimit now : Nat) (p : Pool) (tx : Transaction) (id : Hash)
    (blobSize : Nat) (kept : Bool) :
    ((addTx E db sizeLimit now p tx id blobSize kept).1 = false →
        (addTx E db sizeLimit now p tx id blobSize kept).2 = p) ↔
      (kept = true → Admissible tx → p.view id = none → FreshClaims E.P p id tx) := by
  constructor
  · intro hsame hkept hadmissible habsent
    subst hkept
    by_contra hstale
    have hview := @addTx_kept_view E db tx p id sizeLimit now blobSize hadmissible habsent
    obtain ⟨txd, hid, htx, heq⟩ := @addTx_kept E db tx p id sizeLimit now blobSize hadmissible
    have hfind : p.transactions.find txd.id = none := by
      rw [hid]
      simpa [Pool.view] using habsent
    obtain ⟨c, hc⟩ := MultiIndex.insert_of_free transactionPriority hfind
    rw [hc] at heq
    have hfalse : (L4.addTx E db sizeLimit now p tx id blobSize true).1 = false := by
      rw [heq, ← Bool.not_eq_true]
      intro htrue
      obtain ⟨hnd, hi, ha⟩ := addTransactionInputs_true_iff.mp htrue
      exact hstale ⟨hnd, hi, ha⟩
    rw [hsame hfalse] at hview
    have := congrFun hview id
    rw [habsent, Table.put_same] at this
    cases this
  · intro hfresh
    generalize hr : L4.addTx E db sizeLimit now p tx id blobSize kept = r
    have hadded := addTx_added E db sizeLimit now p tx id blobSize kept
    rw [hr] at hadded
    cases hadded with
    | refused => exact fun _ => rfl
    | forgotten => exact fun _ => rfl
    | @filed txd c hadmissible hrelay hid htx _ _ hc =>
      intro hfalse
      have habsent : p.view id = none := by
        rw [← hid]
        exact (view_of_insert (P := E.P) hc id tx kept).1
      have htrue : ({ p with transactions := c }.addTransactionInputs E.P id tx kept).1 = true := by
        cases kept with
        | true =>
          obtain ⟨hnd, hi, ha⟩ := hfresh rfl hadmissible habsent
          exact addTransactionInputs_true_iff.mpr ⟨hnd, hi, ha⟩
        | false =>
          obtain ⟨hunspent, hunregistered, hchecked⟩ := hrelay rfl
          rw [addTransactionInputs_relayed (p := { p with transactions := c }) hunspent hunregistered]
          refine addTransactionInputs_true_iff.mpr
            ⟨nodup_of_checked hadmissible (checkTransactionInputsMaxUsed_true hchecked), ?_, ?_⟩
          · intro k hk hmem
            exact List.any_eq_false.mp hunspent k hk (decide_eq_true ⟨(k, id), hmem, rfl⟩)
          · intro a ha hmem
            have hclaimed : claimed p.pqAccountRegistrations a = true := decide_eq_true ⟨(a, id), hmem, rfl⟩
            rw [Pool.havePqAccountRegistration, ha, Option.any_some, hclaimed] at hunregistered
            cases hunregistered
      rw [htrue] at hfalse
      cases hfalse

end Discrete.L4
