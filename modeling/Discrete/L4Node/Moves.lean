import Discrete.L4Node.Node

/-!
# Transactions between the pool and the chain

Pushing a block takes its transactions out of the pool, and popping it puts them
back: `Moves` is that relation between what chain and pool hold before and after,
and the two directions of it are what `pushBlock` and `popBlock` do.

* `pushBlock_spec`: a push moves a block, or changes nothing, or throws with the
  chain untouched.
* `popBlock_spec`: a pop undoes a move.
* `Moves.unique`: there is only one move to undo.
* `pushBlock_again`: a move that was undone can be made again.
-/
namespace Discrete.L4
open List L1 L2 L3

/-- Every transaction of the pool is filed under its hash and passed the relay gate. -/
def PoolOk (P : Primitives) (view : View) : Prop :=
  ∀ h tx, view h = some tx → getObjectHash P tx = h ∧ Gated P tx

/-- The clock is never turned back, and only templates and pool queries validate ids. -/
structure Onward (s s' : Node) : Prop where
  reads : s.reads ≤ s'.reads
  validated : s'.pool.validatedTransactions ⊆ s.pool.validatedTransactions

theorem Onward.refl (s : Node) : Onward s s := ⟨le_refl _, subset_refl _⟩

theorem Onward.trans {s s' s'' : Node} (h : Onward s s') (h' : Onward s' s'') : Onward s s'' :=
  ⟨le_trans h.reads h'.reads, h'.validated.trans h.validated⟩

/-- The alternative blocks, their index and the record of a refused fork are the same. -/
structure SameForks (s s' : Node) : Prop where
  alts : s'.alternativeChains = s.alternativeChains
  index : s'.orphanBlocksIndex = s.orphanBlocksIndex
  fork : s'.finalityForkState = s.finalityForkState

theorem SameForks.refl (s : Node) : SameForks s s := ⟨rfl, rfl, rfl⟩

theorem SameForks.trans {s s' s'' : Node} (h : SameForks s s') (h' : SameForks s' s'') : SameForks s s'' :=
  ⟨h'.alts.trans h.alts, h'.index.trans h.index, h'.fork.trans h.fork⟩

/-- Work on the chain and the pool, which leaves the alternative blocks alone. -/
structure Later (s s' : Node) : Prop extends Onward s s', SameForks s s'

theorem Later.refl (s : Node) : Later s s := ⟨.refl s, .refl s⟩

theorem Later.trans {s s' s'' : Node} (h : Later s s') (h' : Later s' s'') : Later s s'' :=
  ⟨h.toOnward.trans h'.toOnward, h.toSameForks.trans h'.toSameForks⟩

/-- Work on the pool alone. -/
structure Quiet (s s' : Node) : Prop extends Later s s' where
  db : s'.db = s.db

theorem Quiet.refl (s : Node) : Quiet s s := ⟨.refl s, rfl⟩

theorem Quiet.trans {s s' s'' : Node} (h : Quiet s s') (h' : Quiet s' s'') : Quiet s s'' :=
  ⟨h.toLater.trans h'.toLater, h'.db.trans h.db⟩

variable {N : NodeEnv}

/-! ## Putting back -/

theorem addTx_quiet (s : Node) (tx : Transaction) (kept : Bool) : Quiet s (s.addTx N tx kept).2 := by
  refine ⟨⟨⟨Nat.le_succ _, ?_⟩, ⟨rfl, rfl, rfl⟩⟩, rfl⟩
  rcases addTx_cases N.toEnv s.db s.currentBlockCumulSzLimit (N.clock s.reads) s.pool tx (getObjectHash N.P tx)
    (getObjectBinarySize tx) kept with h | ⟨-, -, h⟩
  · simp [Node.addTx, h]
  · simp [Node.addTx, h]

/-- One turn of putting back: `view` is what was held before the transactions `tx` and
those under `hs` were taken. -/
theorem addTx_restores {view : View} (hpool : PoolOk N.P view) {s : Node} {tx : Transaction} {hs : List Hash}
    (hview : s.pool.view = view.removeAll (getObjectHash N.P tx :: hs)) (hnew : getObjectHash N.P tx ∉ hs)
    (htx : view (getObjectHash N.P tx) = some tx) : (s.addTx N tx true).2.pool.view = view.removeAll hs := by
  have habsent : s.pool.view (getObjectHash N.P tx) = none := by
    rw [hview, Table.removeAll_apply, if_pos (by simp)]
  have hput : (s.addTx N tx true).2.pool.view = s.pool.view.put (getObjectHash N.P tx) tx :=
    addTx_kept_view (Gated.admissible (hpool _ _ htx).2) habsent
  rw [hput]
  ext1 k
  rw [Table.put_apply, hview, Table.removeAll_apply, Table.removeAll_apply]
  by_cases hk : k = getObjectHash N.P tx
  · rw [if_pos hk, hk, if_neg hnew, htx]
  · simp [hk]

/-- `taken` can be put back to give `view`. -/
structure Taken (P : Primitives) (view : View) (taken : List Transaction) : Prop where
  held : ∀ tx ∈ taken, view (getObjectHash P tx) = some tx
  nodup : (taken.map (getObjectHash P)).Nodup

theorem Taken.tail {P : Primitives} {view : View} {tx : Transaction} {l : List Transaction}
    (h : Taken P view (tx :: l)) : Taken P view l :=
  ⟨fun t ht => h.held t (by simp [ht]), (nodup_cons.mp h.nodup).2⟩

theorem Taken.reverse {P : Primitives} {view : View} {l : List Transaction} (h : Taken P view l) :
    Taken P view l.reverse :=
  ⟨fun t ht => h.held t (by simpa using ht), by rw [map_reverse]; exact nodup_reverse.mpr h.nodup⟩

theorem removeAll_reverse (view : View) (hs : List Hash) : view.removeAll hs.reverse = view.removeAll hs := by
  ext1 k
  simp [Table.removeAll_apply]

theorem saveTransactions_spec {view : View} (hpool : PoolOk N.P view) {txs : List Transaction} {s : Node}
    (ht : Taken N.P view txs) (hview : s.pool.view = view.removeAll (txs.map (getObjectHash N.P))) :
    Quiet s (s.saveTransactions N txs) ∧ (s.saveTransactions N txs).pool.view = view := by
  have hloop : ∀ (l : List Transaction) (s : Node), Taken N.P view l →
      s.pool.view = view.removeAll (l.map (getObjectHash N.P)) →
      Quiet s (l.foldl (fun s tx => (s.addTx N tx true).2) s) ∧
        (l.foldl (fun s tx => (s.addTx N tx true).2) s).pool.view = view := by
    intro l
    induction l with
    | nil => exact fun s _ hv => ⟨.refl s, hv⟩
    | cons tx l ih =>
      intro s hl hv
      have hstep := addTx_restores hpool hv (nodup_cons.mp hl.nodup).1 (hl.held tx (by simp))
      obtain ⟨hq, hfinal⟩ := ih _ hl.tail hstep
      exact ⟨(addTx_quiet s tx true).trans hq, hfinal⟩
  exact hloop txs.reverse s ht.reverse (by rw [map_reverse, removeAll_reverse]; exact hview)

theorem putBack_spec {view : View} (hpool : PoolOk N.P view) : ∀ {l : List Transaction} {s : Node},
    Taken N.P view l → s.pool.view = view.removeAll (l.map (getObjectHash N.P)) →
    Quiet s (s.putBack N l).2 ∧ Sub (s.putBack N l).2.pool.view view ∧
      ((s.putBack N l).1 = true → (s.putBack N l).2.pool.view = view)
  | [], s, _, hv => by
    have hv : s.pool.view = view := hv
    exact ⟨.refl s, fun _ _ h => hv ▸ h, fun _ => hv⟩
  | tx :: l, s, hl, hv => by
    have hstep := addTx_restores hpool hv (nodup_cons.mp hl.nodup).1 (hl.held tx (by simp))
    have hq := addTx_quiet (N := N) s tx true
    rw [Node.putBack]
    split
    · rename_i s1 heq
      rw [heq] at hstep hq
      obtain ⟨hq', hsub, hall⟩ := putBack_spec hpool hl.tail hstep
      exact ⟨hq.trans hq', hsub, hall⟩
    · rename_i s1 heq
      rw [heq] at hstep hq
      exact ⟨hq, by rw [hstep]; exact Sub.removeAll _ _, by simp⟩

/-! ## Taking out -/

/-- What loading the transactions under `ids` leaves of the pool. -/
inductive LoadSpec (P : Primitives) (view : View) (ids : List Hash) : Loaded → View → Prop where
  | all {txs : List Transaction} : txs.map (getObjectHash P) = ids → Taken P view txs →
      LoadSpec P view ids (.all txs) (view.removeAll ids)
  | missing : LoadSpec P view ids .missing view
  | threw {view' : View} : Sub view' view → LoadSpec P view ids .threw view'

/-- One more transaction is taken. -/
theorem Taken.take {P : Primitives} {view view₁ view₂ : View} (hpool : PoolOk P view) {taken : List Transaction}
    {id : Hash} {tx : Transaction} (ht : Taken P view taken) (hv : view₁ = view.removeAll (taken.map (getObjectHash P)))
    (hheld : view₁ id = some tx) (hview : view₂ = view₁.remove id) :
    getObjectHash P tx = id ∧ Taken P view (tx :: taken) ∧
      view₂ = view.removeAll ((tx :: taken).map (getObjectHash P)) := by
  rw [hv, Table.removeAll_apply] at hheld
  split at hheld
  · cases hheld
  rename_i hnot
  obtain ⟨hid, -⟩ := hpool _ _ hheld
  refine ⟨hid, ⟨?_, ?_⟩, ?_⟩
  · intro t hmem
    rcases mem_cons.mp hmem with rfl | hmem
    · rw [hid, hheld]
    · exact ht.held t hmem
  · rw [map_cons, nodup_cons, hid]
    exact ⟨hnot, ht.nodup⟩
  · rw [hview, hv, map_cons, hid]
    ext1 k
    rw [Table.remove_apply, Table.removeAll_apply, Table.removeAll_apply]
    by_cases hk : k = id <;> simp [hk]

theorem takeAll_spec {view : View} (hpool : PoolOk N.P view) : ∀ (ids : List Hash) {taken : List Transaction}
    {s : Node}, Taken N.P view taken → s.pool.view = view.removeAll (taken.map (getObjectHash N.P)) →
    Quiet s (s.takeAll N taken ids).2 ∧
      LoadSpec N.P view (taken.reverse.map (getObjectHash N.P) ++ ids) (s.takeAll N taken ids).1
        (s.takeAll N taken ids).2.pool.view
  | [], taken, s, ht, hv => by
    refine ⟨.refl s, ?_⟩
    rw [Node.takeAll, append_nil]
    simp only
    rw [hv, ← removeAll_reverse, ← map_reverse]
    exact .all rfl ht.reverse
  | id :: ids, taken, s, ht, hv => by
    rw [Node.takeAll]
    split
    · rename_i tx pool htake
      obtain ⟨hheld, hview, hvalid⟩ := takeTx_view htake
      obtain ⟨hid, ht', hv'⟩ := ht.take hpool hv hheld hview
      have hq : Quiet s { s with pool := pool } :=
        ⟨⟨⟨le_refl _, by rw [hvalid]; exact Finset.erase_subset _ _⟩, ⟨rfl, rfl, rfl⟩⟩, rfl⟩
      obtain ⟨hq', hspec⟩ := takeAll_spec hpool ids (s := { s with pool := pool }) ht' hv'
      refine ⟨hq.trans hq', ?_⟩
      simpa [hid] using hspec
    · obtain ⟨hq, hsub, hall⟩ := putBack_spec hpool ht hv
      split
      · rename_i s1 heq
        rw [heq] at hq hall
        exact ⟨hq, by rw [hall rfl]; exact .missing⟩
      · rename_i s1 heq
        rw [heq] at hq hsub
        exact ⟨hq, .threw hsub⟩

theorem loadTransactions_spec {s : Node} (hpool : PoolOk N.P s.pool.view) (b : Block) :
    Quiet s (s.loadTransactions N b).2 ∧
      LoadSpec N.P s.pool.view b.transactionHashes (s.loadTransactions N b).1 (s.loadTransactions N b).2.pool.view := by
  have hnone : Taken N.P s.pool.view [] := ⟨by simp, by simp⟩
  have h := takeAll_spec hpool b.transactionHashes (s := s) hnone rfl
  simpa [Node.loadTransactions] using h

/-- Hashes that are all held are all loaded. -/
theorem takeAll_all : ∀ (ids : List Hash) (taken : List Transaction) {s : Node}, ids.Nodup →
    (∀ id ∈ ids, (s.pool.view id).isSome) → ∃ txs s', s.takeAll N taken ids = (.all txs, s')
  | [], taken, s, _, _ => ⟨_, _, rfl⟩
  | id :: ids, taken, s, hnd, hheld => by
    rw [Node.takeAll]
    split
    · rename_i tx pool htake
      apply takeAll_all ids (tx :: taken) (nodup_cons.mp hnd).2
      intro k hk
      have hne : k ≠ id := by
        rintro rfl
        exact (nodup_cons.mp hnd).1 hk
      rw [(takeTx_view htake).2.1, Table.remove_apply, if_neg hne]
      exact hheld k (by simp [hk])
    · rename_i hnone
      have := hheld id (by simp)
      rw [takeTx_eq_none.mp hnone] at this
      cases this

/-! ## Moves -/

/-- The block `sb` goes onto the chain and its transactions leave the pool. -/
structure Moves (N : NodeEnv) (clock : Nat) (db : Db) (view : View) (sb : StoredBlock) (db' : Db) (view' : View) :
    Prop where
  pushed : Pushed N.toEnv clock db sb db'
  hashes : sb.txs.map (getObjectHash N.P) = sb.block.transactionHashes
  taken : Taken N.P view sb.txs
  moved : view' = view.removeAll sb.block.transactionHashes

inductive PushSpec (N : NodeEnv) (s : Node) (b : Block) : Outcome → Node → Prop where
  | pushed {s' : Node} {sb : StoredBlock} : sb.block = b →
      Moves N (N.clock s'.reads) s.db s.pool.view sb s'.db s'.pool.view → PushSpec N s b (.returned true) s'
  | refused {s' : Node} : s'.db = s.db → s'.pool.view = s.pool.view → PushSpec N s b (.returned false) s'
  | threw {s' : Node} : s'.db = s.db → Sub s'.pool.view s.pool.view → PushSpec N s b .threw s'

theorem pushBlock_spec {s : Node} (hpool : PoolOk N.P s.pool.view) (hempty : s.db.getChainHeight = 0 → s.db = .empty)
    {b : Block} {prevalidated : Option Hash}
    (hpre : ∀ p ∈ prevalidated, N.prims.prevalidateBlockProofOfWork b = some p) :
    Later s (s.pushBlock N b (N.prims.getBlockHash b) prevalidated).2 ∧
      PushSpec N s b (s.pushBlock N b (N.prims.getBlockHash b) prevalidated).1
        (s.pushBlock N b (N.prims.getBlockHash b) prevalidated).2 := by
  obtain ⟨hq, hload⟩ := loadTransactions_spec (N := N) hpool b
  rw [Node.pushBlock]
  split
  · rename_i s1 heq
    simp only [heq] at hq hload
    generalize hv : s1.pool.view = view1 at hload
    cases hload with
    | missing => exact ⟨hq.toLater, .refused hq.db hv⟩
  · rename_i s1 heq
    simp only [heq] at hq hload
    cases hload with
    | threw hsub => exact ⟨hq.toLater, .threw hq.db hsub⟩
  · rename_i txs s1 heq
    simp only [heq] at hq hload
    generalize hv : s1.pool.view = view1 at hload
    cases hload with
    | all hhashes htaken =>
      split
      · rename_i db hp
        have hlen : txs.length = b.transactionHashes.length := by
          rw [← hhashes, length_map]
        have hgate : ∀ tx ∈ txs, Gated N.P tx := fun tx hmem => (hpool _ _ (htaken.held tx hmem)).2
        rw [hq.db] at hp
        obtain ⟨entry, hpushed⟩ := Pushed.of_ok (N.clock_mono (Nat.le_succ s1.reads)) hpre hempty hlen hgate hp
        have hl : Later s1 { s1 with
            db := db
            currentBlockCumulSzLimit := updateNextCumulativeSizeLimit db
            reads := s1.reads + 1 } := ⟨⟨Nat.le_succ _, subset_refl _⟩, ⟨rfl, rfl, rfl⟩⟩
        exact ⟨hq.toLater.trans hl, .pushed rfl ⟨hpushed, hhashes, htaken, hv⟩⟩
      · have hq1 : Quiet s1 { s1 with reads := s1.reads + 1 } :=
          ⟨⟨⟨Nat.le_succ _, subset_refl _⟩, ⟨rfl, rfl, rfl⟩⟩, rfl⟩
        obtain ⟨hq2, hfinal⟩ := saveTransactions_spec (N := N) hpool (s := { s1 with reads := s1.reads + 1 }) htaken
          (by rw [hhashes]; exact hv)
        have hall := (hq.trans hq1).trans hq2
        exact ⟨hall.toLater, .refused hall.db hfinal⟩

/-! ## Giving a block's transactions back -/

section GivenBack
variable {P : Primitives} {txs : List Transaction} {view : View}

/-- What a pool holds once it has `txs` back. -/
def givenBack (P : Primitives) (txs : List Transaction) (view : View) : View := fun k =>
  (txs.find? fun tx => getObjectHash P tx = k).or (view k)

theorem find_hash_eq_none {k : Hash} :
    (txs.find? fun tx => getObjectHash P tx = k) = none ↔ k ∉ txs.map (getObjectHash P) := by
  simp [find?_eq_none]

theorem givenBack_taken (hnodup : (txs.map (getObjectHash P)).Nodup) : Taken P (givenBack P txs view) txs := by
  refine ⟨?_, hnodup⟩
  intro tx htx
  unfold givenBack
  cases hf : txs.find? fun t => getObjectHash P t = getObjectHash P tx with
  | none => exact absurd (List.mem_map_of_mem htx) (find_hash_eq_none.mp hf)
  | some t =>
    have ht : getObjectHash P t = getObjectHash P tx := by simpa using find?_some hf
    rw [inj_on_of_nodup_map hnodup (mem_of_find?_eq_some hf) htx ht, Option.some_or]

theorem givenBack_pool (hview : PoolOk P view) (hgate : ∀ tx ∈ txs, Gated P tx) : PoolOk P (givenBack P txs view) := by
  intro k tx hk
  rcases Option.or_eq_some_iff.mp hk with hk | ⟨-, hk⟩
  · exact ⟨by simpa using find?_some hk, hgate tx (mem_of_find?_eq_some hk)⟩
  · exact hview k tx hk

theorem givenBack_of_not_mem {k : Hash} (hk : k ∉ txs.map (getObjectHash P)) : givenBack P txs view k = view k := by
  rw [givenBack, find_hash_eq_none.mpr hk, Option.none_or]

theorem removeAll_givenBack (habsent : ∀ k ∈ txs.map (getObjectHash P), view k = none) :
    view = (givenBack P txs view).removeAll (txs.map (getObjectHash P)) := by
  ext1 k
  rw [Table.removeAll_apply]
  split
  · exact habsent k (by assumption)
  · rw [givenBack_of_not_mem (by assumption)]

end GivenBack

/-! ## The pool within a call -/

/-- What pushing and popping do to the pool while the chain is `db`: a transaction is
handed out, or is filed as one that came with a block. -/
inductive PoolMove (N : NodeEnv) (db : Db) : Pool → Pool → Prop where
  | keep {p : Pool} (sizeLimit now : Nat) (tx : Transaction) :
      PoolMove N db p
        (addTx N.toEnv db sizeLimit now p tx (getObjectHash N.P tx) (getObjectBinarySize tx) true).2
  | take {p p' : Pool} {tx : Transaction} (id : Hash) : takeTx N.P p id = some (tx, p') → PoolMove N db p p'

abbrev PoolMoves (N : NodeEnv) (db : Db) : Pool → Pool → Prop := Relation.ReflTransGen (PoolMove N db)

theorem keeps_moves : ∀ (l : List Transaction) (s : Node), (l.foldl (fun s tx => (s.addTx N tx true).2) s).db = s.db ∧
      PoolMoves N s.db s.pool (l.foldl (fun s tx => (s.addTx N tx true).2) s).pool
  | [], s => ⟨rfl, .refl⟩
  | tx :: l, s => by
    obtain ⟨hdb, hmoves⟩ := keeps_moves l (s.addTx N tx true).2
    exact ⟨hdb, .head (.keep _ _ tx) hmoves⟩

theorem putBack_moves : ∀ (l : List Transaction) (s : Node),
    (s.putBack N l).2.db = s.db ∧ PoolMoves N s.db s.pool (s.putBack N l).2.pool
  | [], s => ⟨rfl, .refl⟩
  | tx :: l, s => by
    have hkeep : PoolMove N s.db s.pool (s.addTx N tx true).2.pool := .keep _ _ tx
    have hdb : (s.addTx N tx true).2.db = s.db := rfl
    rw [Node.putBack]
    split
    · rename_i s₁ heq
      rw [heq] at hkeep hdb
      obtain ⟨hdb', hmoves⟩ := putBack_moves l s₁
      rw [hdb] at hdb' hmoves
      exact ⟨hdb', .head hkeep hmoves⟩
    · rename_i s₁ heq
      rw [heq] at hkeep hdb
      exact ⟨hdb, .single hkeep⟩

theorem takeAll_moves : ∀ (ids : List Hash) (taken : List Transaction) (s : Node),
    (s.takeAll N taken ids).2.db = s.db ∧ PoolMoves N s.db s.pool (s.takeAll N taken ids).2.pool
  | [], _, _ => ⟨rfl, .refl⟩
  | id :: ids, taken, s => by
    rw [Node.takeAll]
    split
    · rename_i tx pool htake
      obtain ⟨hdb, hmoves⟩ := takeAll_moves ids (tx :: taken) { s with pool := pool }
      exact ⟨hdb, .head (.take id htake) hmoves⟩
    · have h := putBack_moves (N := N) taken s
      split
      · rename_i heq
        rw [heq] at h
        exact h
      · rename_i heq
        rw [heq] at h
        exact h

theorem pushBlock_moves (s : Node) (b : Block) (id : Hash) (prevalidated : Option Hash) :
    PoolMoves N s.db s.pool (s.pushBlock N b id prevalidated).2.pool := by
  obtain ⟨hdb, hload⟩ := takeAll_moves (N := N) b.transactionHashes [] s
  rw [Node.pushBlock, Node.loadTransactions]
  split
  · rename_i heq
    rw [heq] at hload
    exact hload
  · rename_i heq
    rw [heq] at hload
    exact hload
  · rename_i txs s₁ heq
    rw [heq] at hdb hload
    split
    · exact hload
    · have hdb : s₁.db = s.db := hdb
      have hload : PoolMoves N s₁.db s.pool s₁.pool := by
        rw [hdb]
        exact hload
      rw [← hdb]
      exact hload.trans (keeps_moves txs.reverse { s₁ with reads := s₁.reads + 1 }).2

theorem popBlock_moves (s : Node) : PoolMoves N s.db s.pool (s.popBlock N).pool := by
  unfold Node.popBlock
  dsimp only
  split
  · exact .refl
  · rename_i txs _
    exact (keeps_moves txs.reverse s).2

/-! ## What holds between calls -/

/-- The chain is built from the blocks it stores, which name their transactions by
hash; the pool is in order and holds none of the chain's transactions. -/
structure ChainOk (N : NodeEnv) (clock : Nat) (db : Db) (view : View) : Prop where
  built : Built N.toEnv clock db.storedBlocks db
  hashes : ∀ sb ∈ db.storedBlocks, sb.txs.map (getObjectHash N.P) = sb.block.transactionHashes
  pool : PoolOk N.P view
  apart : ∀ sb ∈ db.storedBlocks, ∀ h ∈ sb.block.transactionHashes, view h = none

/-- The same at the node's own time. -/
abbrev NodeOk (N : NodeEnv) (s : Node) : Prop := ChainOk N (N.clock s.reads) s.db s.pool.view

section ChainOk
variable {clock : Nat} {db db' : Db} {view view' : View} {sb : StoredBlock}

theorem ChainOk.mono {clock' : Nat} (hle : clock ≤ clock') (h : ChainOk N clock db view) : ChainOk N clock' db view :=
  ⟨h.built.mono hle, h.hashes, h.pool, h.apart⟩

theorem ChainOk.sub (h : ChainOk N clock db view) (hsub : Sub view' view) : ChainOk N clock db view' := by
  refine ⟨h.built, h.hashes, fun k tx hk => h.pool k tx (hsub k tx hk), fun sb hsb k hk => ?_⟩
  cases hv : view' k with
  | none => rfl
  | some tx =>
    have := hsub k tx hv
    rw [h.apart sb hsb k hk] at this
    cases this

theorem Moves.mono {clock' : Nat} (hle : clock ≤ clock') (h : Moves N clock db view sb db' view') :
    Moves N clock' db view sb db' view' :=
  ⟨h.pushed.mono hle, h.hashes, h.taken, h.moved⟩

variable (h : Moves N clock db view sb db' view')
include h

theorem Moves.storedBlocks : db'.storedBlocks = db.storedBlocks ++ [sb] := by
  rw [h.pushed.written]
  exact storedBlocks_writeStored h.pushed.undoable.sized

theorem Moves.height : db'.getChainHeight = db.getChainHeight + 1 := by
  rw [h.pushed.written, writeStored_getChainHeight]

omit h in
theorem ChainOk.push (h : ChainOk N clock db view) (hm : Moves N clock db view sb db' view') :
    ChainOk N clock db' view' := by
  have hblocks := hm.storedBlocks
  refine ⟨?_, ?_, ?_, ?_⟩
  · rw [hblocks]
    exact .push h.built hm.pushed
  · intro sb' hmem
    rw [hblocks, mem_append, mem_singleton] at hmem
    rcases hmem with hmem | rfl
    · exact h.hashes sb' hmem
    · exact hm.hashes
  · intro k tx hk
    rw [hm.moved] at hk
    exact h.pool k tx (Sub.removeAll _ _ k tx hk)
  · intro sb' hmem k hk
    rw [hblocks, mem_append, mem_singleton] at hmem
    rw [hm.moved, Table.removeAll_apply]
    split
    · rfl
    · rename_i hnot
      rcases hmem with hmem | rfl
      · exact h.apart sb' hmem k hk
      · exact absurd hk hnot

/-- What was held before a move, from what is held after it. -/
theorem Moves.view_eq : view = givenBack N.P sb.txs view' := by
  ext1 k
  unfold givenBack
  cases hf : sb.txs.find? fun tx => getObjectHash N.P tx = k with
  | some tx =>
    have hk : getObjectHash N.P tx = k := by simpa using find?_some hf
    rw [← hk, h.taken.held tx (mem_of_find?_eq_some hf)]
    rfl
  | none =>
    rw [Option.none_or, h.moved, Table.removeAll_apply, if_neg]
    rw [← h.hashes]
    exact find_hash_eq_none.mp hf

omit h in
/-- There is one way to undo a move. -/
theorem Moves.unique {db₁ : Db} {view₁ : View} {sb₁ : StoredBlock} (hwf : db.Wf) (hwf₁ : db₁.Wf)
    (h : Moves N clock db view sb db' view') (h₁ : Moves N clock db₁ view₁ sb₁ db' view') :
    db₁ = db ∧ view₁ = view ∧ sb₁ = sb := by
  have hdb : removeLastBlock N.P db' = db := by
    rw [h.pushed.written]
    exact removeLastBlock_writeStored hwf h.pushed.undoable
  have hdb₁ : removeLastBlock N.P db' = db₁ := by
    rw [h₁.pushed.written]
    exact removeLastBlock_writeStored hwf₁ h₁.pushed.undoable
  have hdbs : db₁ = db := hdb₁.symm.trans hdb
  have hsb : sb₁ = sb := by
    have := h.storedBlocks.symm.trans h₁.storedBlocks
    rw [hdbs, append_cancel_left_eq, singleton_inj] at this
    exact this.symm
  exact ⟨hdbs, by rw [h.view_eq, h₁.view_eq, hsb], hsb⟩

/-- A move that was undone can be made again, whatever the pool remembers of it. -/
theorem pushBlock_again (htail : (db.hashHeight db.getTailId).isSome) (hpool : PoolOk N.P view) {s : Node}
    (hdb : s.db = db) (hview : s.pool.view = view) (hclock : clock ≤ N.clock s.reads) :
    ∃ s', s.pushBlock N sb.block (N.prims.getBlockHash sb.block) none = (.returned true, s') ∧
      Later s s' ∧ s'.db = db' ∧ s'.pool.view = view' := by
  have hpool' : PoolOk N.P s.pool.view := hview ▸ hpool
  obtain ⟨txs, s1, hload⟩ := takeAll_all (N := N) sb.block.transactionHashes [] (s := s)
    (by rw [← h.hashes]; exact h.taken.nodup) (by
      intro k hk
      rw [← h.hashes] at hk
      obtain ⟨tx, htx, rfl⟩ := List.mem_map.mp hk
      rw [hview, h.taken.held tx htx]
      rfl)
  have hload : s.loadTransactions N sb.block = (.all txs, s1) := hload
  obtain ⟨hq, hspec⟩ := loadTransactions_spec hpool' sb.block
  simp only [hload] at hq hspec
  generalize hv : s1.pool.view = view1 at hspec
  cases hspec with
  | all hhashes htaken =>
    -- a hash is held for one transaction, so the same transactions come out
    have htxs : txs = sb.txs := by
      apply map_injective_iff.mpr (Option.some_injective Transaction)
      have hsome : ∀ l : List Transaction, Taken N.P s.pool.view l →
          l.map some = (l.map (getObjectHash N.P)).map s.pool.view := by
        intro l hl
        rw [List.map_map]
        exact map_congr_left fun tx hmem => (hl.held tx hmem).symm
      rw [hsome txs htaken, hhashes, ← h.hashes, ← hsome sb.txs (hview ▸ h.taken)]
    have hagain := h.pushed.again htail (le_trans hclock (N.clock_mono hq.reads)) s1.findAlternative
    rw [Node.pushBlock, hload]
    simp only [htxs, hq.db, hdb, hagain]
    refine ⟨_, rfl, hq.toLater.trans ⟨⟨Nat.le_succ _, subset_refl _⟩, ⟨rfl, rfl, rfl⟩⟩, rfl, ?_⟩
    simp only [hv, h.moved, hview]

end ChainOk

/-- What `popBlock` reads back. -/
theorem storedBlock_transactions {db : Db} {height : Nat} {sb : StoredBlock} (h : db.storedBlock height = some sb) :
    ((List.range ((db.getBlockMeta height).txCount - 1)).mapM fun t => db.transactionByIndex height (t + 1)) =
      some sb.txs := by
  unfold Db.storedBlock at h
  split at h
  · rename_i entry block hentry hblock
    obtain ⟨txs, htxs, rfl⟩ := Option.map_eq_some_iff.mp h
    rw [Db.getBlockMeta, hentry]
    exact htxs
  · cases h

/-- Popping a block is undoing a move. -/
theorem popBlock_spec {s : Node} (h : NodeOk N s) (hlen : 1 < s.db.getChainHeight) :
    Later s (s.popBlock N) ∧ NodeOk N (s.popBlock N) ∧
      ∃ sb, Moves N (N.clock s.reads) (s.popBlock N).db (s.popBlock N).pool.view sb s.db s.pool.view ∧
        s.db.blockData (s.db.getChainHeight - 1) = some sb.block := by
  obtain ⟨blocks, sb, hblocks, hbuilt, hpushed⟩ := h.built.removeLastBlock hlen
  have hmem : sb ∈ s.db.storedBlocks := by rw [hblocks]; simp
  generalize hdb : removeLastBlock N.P s.db = db at hbuilt hpushed
  have hheight : s.db.getChainHeight - 1 = db.getChainHeight := by
    have := congrArg Db.getChainHeight hpushed.written
    rw [writeStored_getChainHeight] at this
    omega
  have hlast : s.db.storedBlock (s.db.getChainHeight - 1) = some sb := by
    rw [hheight, hpushed.written]
    exact storedBlock_writeStored_last hpushed.undoable.sized
  have hdata : s.db.blockData (s.db.getChainHeight - 1) = some sb.block := by
    rw [hheight, hpushed.written, writeStored_blockData, Table.put_same]
  have hhashes := h.hashes sb hmem
  obtain ⟨hfresh, hids⟩ := FreshRun.ids hpushed.undoable.fresh
  have hfst := hpushed.undoable.sized.fst N.P
  have hnodup : (sb.txs.map (getObjectHash N.P)).Nodup := by
    rw [hfst, blockTxHashes, nodup_cons] at hids
    rw [hhashes]
    exact hids.2
  have htaken : Taken N.P (givenBack N.P sb.txs s.pool.view) sb.txs := givenBack_taken hnodup
  have hpool := givenBack_pool h.pool hpushed.gated
  have hmoved := removeAll_givenBack (hhashes ▸ h.apart sb hmem)
  obtain ⟨hq, hview⟩ := saveTransactions_spec hpool htaken hmoved
  have hpop : s.popBlock N = { s.saveTransactions N sb.txs with db := db } := by
    rw [Node.popBlock]
    simp only [storedBlock_transactions hlast, hq.db, hdb]
  have hlater : Later s (s.popBlock N) := by
    rw [hpop]
    exact ⟨⟨hq.reads, hq.validated⟩, ⟨hq.alts, hq.index, hq.fork⟩⟩
  refine ⟨hlater, ?_, sb, ?_, hdata⟩
  · apply ChainOk.mono (N.clock_mono hlater.reads)
    rw [hpop]
    refine ⟨hbuilt.storedBlocks.symm ▸ hbuilt, ?_, by rw [hview]; exact hpool, ?_⟩
    · intro sb' hsb'
      rw [hbuilt.storedBlocks] at hsb'
      exact h.hashes sb' (by rw [hblocks]; simp [hsb'])
    · -- an older block's transactions were on the chain when the popped ones were new
      intro sb' hsb' k hk
      rw [hbuilt.storedBlocks] at hsb'
      have hother : k ∉ sb.txs.map (getObjectHash N.P) := by
        intro hin
        have hin' : k ∈ (sb.transactions N.P).map Prod.fst := by
          rw [hfst, blockTxHashes, ← hhashes]
          exact mem_cons_of_mem _ hin
        obtain ⟨x, hx, rfl⟩ := List.mem_map.mp hin'
        have hindexed := hbuilt.indexed hsb' hk
        rw [hfresh x hx] at hindexed
        cases hindexed
      rw [hview, givenBack_of_not_mem hother]
      exact h.apart sb' (by rw [hblocks]; simp [hsb']) k hk
  · rw [hpop]
    exact ⟨hpushed, hhashes, by rw [hview]; exact htaken, by rw [hview, ← hhashes]; exact hmoved⟩

end Discrete.L4
