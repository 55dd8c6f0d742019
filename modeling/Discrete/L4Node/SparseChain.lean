import Discrete.Core.Locator
import Discrete.L3Ledger.Links
import Discrete.L4Node.Finality

/-!
# Sparse chains and the search for a common block (`Blockchain.cpp`)

A node that asks a peer for blocks sends the ids of a few of its own, close together at
the start block and ever further apart towards genesis. The peer answers from the first
of them that is on its main chain.

* `Db.buildSparseMainChain_eq`: the ids are those at the heights of a locator
  (`Discrete.Core.Locator`) that ends in genesis.
* `doBuildSparseChain_stored`: so they are when the start block is stored off the main chain.
* `sparse_chain_locates`: between two nodes with one genesis, the peer finds the highest
  listed block that is common, at most twice as far back as the fork.
-/
namespace Discrete.L4
open List L1 L2 L3

/-! ## The source -/

/-- mirrors Blockchain.cpp:1726-1736 -/
def findBlockchainSupplement (db : Db) (qblockIds : List Hash) : Nat :=
  (qblockIds.findSome? db.hashHeight).getD 0

/-- The branch of `doBuildSparseChain` for a main-chain start block.
mirrors Blockchain.cpp:1769-1786 -/
def buildSparseMainChain (db : Db) (startBlockHeight : Nat) : List Hash :=
  let sparseChainEnd := startBlockHeight + 1
  let result := (doublings sparseChainEnd).map fun i => (db.getBlockMeta (sparseChainEnd - i)).hash
  let genesisHash := (db.getBlockMeta 0).hash
  if result.getLast? ≠ some genesisHash then result ++ [genesisHash] else result

/-- `none` where an assertion fails: the start block is neither on the main chain nor
stored, or the stored blocks below it do not lead to the main chain.
mirrors Blockchain.cpp:1765-1807 -/
def Node.doBuildSparseChain (s : Node) (startBlockId : Hash) : Option (List Hash) :=
  match s.db.hashHeight startBlockId with
  | some startBlockHeight => some (buildSparseMainChain s.db startBlockHeight)
  | none => do
    let walk ← altWalk s.alternativeChains s.alternativeChains.entries.length startBlockId
    let front ← walk.getLast?
    let ancestorHeight ← s.db.hashHeight front.2.bl.previousBlockHash
    let sparseChain := (doublings walk.length).map fun i => (walk.map Prod.fst).getD (i - 1) nullHash
    return sparseChain ++ buildSparseMainChain s.db ancestorHeight

/-! ## Ids and heights of a built chain -/

section Built
variable {E : Env} {clock : Nat} {blocks : List StoredBlock} {db : Db}

theorem hashHeight_getBlockIdByHeight (h : Built E clock blocks db) {k : Nat} (hk : k < db.getChainHeight) :
    db.hashHeight (db.getBlockIdByHeight k) = some k := by
  rw [h.length] at hk
  have hsb := getElem?_eq_getElem hk
  rw [h.getBlockIdByHeight hsb]
  exact h.hashHeight.mpr ⟨_, hsb, rfl⟩

theorem getBlockIdByHeight_of_hashHeight (h : Built E clock blocks db) {id : Hash} {k : Nat}
    (hk : db.hashHeight id = some k) : k < db.getChainHeight ∧ db.getBlockIdByHeight k = id := by
  obtain ⟨sb, hsb, hid⟩ := h.hashHeight.mp hk
  rw [h.length, h.getBlockIdByHeight hsb]
  exact ⟨(List.getElem?_eq_some_iff.mp hsb).1, hid⟩

theorem getBlockMeta_hash {k : Nat} (hk : k < db.getChainHeight) :
    (db.getBlockMeta k).hash = db.getBlockIdByHeight k := by
  have hk' : k < db.metas.length := hk
  simp [Db.getBlockMeta, Db.getBlockIdByHeight, getElem?_eq_getElem hk']

/-- The heights a sparse chain lists from `height` down. -/
def sparseHeights (height : Nat) : List Nat := (doublings height).map (height + 1 - ·) ++ [0]

theorem descends_sparseHeights (height : Nat) : Discrete.Descends 1 (sparseHeights height) := by
  have h := descends_doublings (.zero 1) height
  rwa [Nat.zero_add] at h

theorem head?_sparseHeights (height : Nat) : (sparseHeights height).head? = some height := by
  have h := head?_doublings 0 height []
  rwa [Nat.zero_add] at h

theorem mem_sparseHeights_le {height k : Nat} (hk : k ∈ sparseHeights height) : k ≤ height := by
  rcases mem_append.mp hk with hk | hk
  · obtain ⟨i, hi, rfl⟩ := List.mem_map.mp hk
    have := doublings_mem hi
    omega
  · rw [mem_singleton.mp hk]
    exact Nat.zero_le height

/-- The loop and the test for genesis after it list the ids at those heights. -/
theorem buildSparseMainChain_eq (h : Built E clock blocks db) {height : Nat} (hlt : height < db.getChainHeight) :
    buildSparseMainChain db height = (sparseHeights height).map db.getBlockIdByHeight := by
  have hids : ∀ i ∈ doublings height, (db.getBlockMeta (height + 1 - i)).hash =
      db.getBlockIdByHeight (height + 1 - i) := by
    intro i hi
    have := doublings_mem hi
    exact getBlockMeta_hash (by omega)
  have hgenesis : (db.getBlockMeta 0).hash = db.getBlockIdByHeight 0 := getBlockMeta_hash (by omega)
  have hmap : (doublings height).map (fun i => (db.getBlockMeta (height + 1 - i)).hash) =
      ((doublings height).map (height + 1 - ·)).map db.getBlockIdByHeight := by
    rw [List.map_map]
    exact map_congr_left hids
  unfold buildSparseMainChain sparseHeights
  dsimp only
  rw [map_append, map_singleton, hgenesis]
  rcases doublings_succ height with hsame | hmore
  · -- the loop has stopped above genesis
    rw [hsame, hmap, if_pos]
    rw [← hmap, getLast?_map]
    intro hlast
    obtain ⟨i, hi, hid⟩ := Option.map_eq_some_iff.mp hlast
    have hmem := mem_of_getLast? hi
    have hrange := doublings_mem hmem
    rw [hids i hmem] at hid
    have hzero := hashHeight_getBlockIdByHeight h (k := 0) (by omega)
    rw [← hid, hashHeight_getBlockIdByHeight h (by omega), Option.some.injEq] at hzero
    omega
  · -- its last turn is genesis
    rw [hmore, map_append, map_singleton, Nat.sub_self, hgenesis, hmap, if_neg]
    simp

end Built

/-! ## Two chains -/

/-- A stored start block: the stored blocks below it at doubling distances, then the sparse
chain of the main-chain block they stand on. By height, this is a locator too. -/
theorem doBuildSparseChain_stored {N : NodeEnv} {s : Node} (h : (nodeLts N).Reachable s) {start : Hash}
    (hstart : s.db.hashHeight start = none) {l : List Hash} (hl : s.doBuildSparseChain start = some l) :
    ∃ (walk : List (Hash × BlockEntry)) (front : Hash × BlockEntry) (height : Nat),
      altWalk s.alternativeChains s.alternativeChains.entries.length start = some walk ∧
      walk.getLast? = some front ∧ s.db.hashHeight front.2.bl.previousBlockHash = some height ∧
      l = (doublings walk.length).map (fun i => (walk.map Prod.fst).getD (i - 1) nullHash) ++
        (sparseHeights height).map s.db.getBlockIdByHeight ∧
      Discrete.Descends 1 ((doublings walk.length).map (height + walk.length + 1 - ·) ++ sparseHeights height) := by
  simp only [Node.doBuildSparseChain, hstart, Option.bind_eq_bind, Option.bind_eq_some_iff,
    Option.pure_def, Option.some.injEq] at hl
  obtain ⟨walk, hwalk, front, hfront, height, hheight, rfl⟩ := hl
  have hbuilt := (node_inv h).ok.built
  have hlt := (getBlockIdByHeight_of_hashHeight hbuilt hheight).1
  refine ⟨walk, front, height, hwalk, hfront, hheight, by rw [buildSparseMainChain_eq hbuilt hlt], ?_⟩
  have hmain := descends_sparseHeights height
  obtain ⟨rest, hrest⟩ : ∃ rest, sparseHeights height = height :: rest :=
    ⟨(sparseHeights height).tail, (cons_head?_tail (head?_sparseHeights height)).symm⟩
  rw [hrest] at hmain ⊢
  exact descends_doublings hmain walk.length

/-- Both chains have the same block at this height. -/
def Common (db db' : Db) (k : Nat) : Prop :=
  k < db.getChainHeight ∧ k < db'.getChainHeight ∧ db.getBlockIdByHeight k = db'.getBlockIdByHeight k

instance (db db' : Db) (k : Nat) : Decidable (Common db db' k) :=
  inferInstanceAs (Decidable (_ ∧ _ ∧ _))

/-- The highest common block at or below the start block. -/
structure ForkPoint (db db' : Db) (height f : Nat) : Prop where
  le : f ≤ height
  common : Common db db' f
  highest : ∀ k ≤ height, Common db db' k → k ≤ f

/-- Ids tell the blocks of the two chains apart. -/
def IdsSeparate (N : NodeEnv) (s s' : Node) : Prop :=
  ∀ sb ∈ s.db.storedBlocks, ∀ sb' ∈ s'.db.storedBlocks,
    N.prims.getBlockHash sb.block = N.prims.getBlockHash sb'.block → sb.block = sb'.block

instance (N : NodeEnv) (s s' : Node) : Decidable (IdsSeparate N s s') := by
  unfold IdsSeparate
  infer_instance

section Common
variable {N N' : NodeEnv} {s s' : Node}

variable (hprims : N'.prims = N.prims) (hs : NodeOk N s) (hs' : NodeOk N' s') (hsep : IdsSeparate N s s')
include hprims hs hs' hsep

/-- One id at a height of each chain: the heights are the same, and so are the ids below. -/
theorem common_of_id {k k' : Nat} (hk : k < s.db.getChainHeight) (hk' : k' < s'.db.getChainHeight)
    (hid : s.db.getBlockIdByHeight k = s'.db.getBlockIdByHeight k') : k' = k ∧ s.db.idBefore k = s'.db.idBefore k := by
  rw [hs.built.length] at hk
  rw [hs'.built.length] at hk'
  have hsb := getElem?_eq_getElem hk
  have hsb' := getElem?_eq_getElem hk'
  have hlinked := hs.built.linked hsb
  have hlinked' := hs'.built.linked hsb'
  rw [hs.built.getBlockIdByHeight hsb, hs'.built.getBlockIdByHeight hsb', hlinked.hash, hlinked'.hash,
    show N'.toEnv.prims = N.prims from hprims] at hid
  have hblock := hsep _ (getElem_mem hk) _ (getElem_mem hk') hid
  have hheight : k' = k := by
    rw [← hlinked.index, ← hlinked'.index, hblock]
  refine ⟨hheight, ?_⟩
  rw [← hlinked.previous, hblock, hlinked'.previous, hheight]

theorem Common.pred {k : Nat} (h : Common s.db s'.db (k + 1)) : Common s.db s'.db k := by
  obtain ⟨hk, hk', hid⟩ := h
  exact ⟨by omega, by omega, (common_of_id hprims hs hs' hsep hk hk' hid).2⟩

/-- Common blocks are a prefix. -/
theorem Common.below {f : Nat} (h : Common s.db s'.db f) : ∀ k ≤ f, Common s.db s'.db k := by
  induction f with
  | zero =>
    intro k hk
    rwa [Nat.le_zero.mp hk]
  | succ f ih =>
    intro k hk
    rcases Nat.le_or_eq_of_le_succ hk with hk | rfl
    · exact ih (h.pred hprims hs hs' hsep) k hk
    · exact h

omit hprims hs hs' hsep in
theorem exists_forkPoint {db db' : Db} (h : Common db db' 0) (height : Nat) : ∃ f, ForkPoint db db' height f :=
  ⟨Nat.findGreatest (Common db db') height, Nat.findGreatest_le height,
    Nat.findGreatest_spec (Nat.zero_le height) h, fun _ hk hc => Nat.le_findGreatest hk hc⟩

/-- What the other node knows of a block of this chain. -/
theorem hashHeight_common {k : Nat} (hk : k < s.db.getChainHeight) :
    s'.db.hashHeight (s.db.getBlockIdByHeight k) = if Common s.db s'.db k then some k else none := by
  split
  · rename_i hc
    rw [hc.2.2]
    exact hashHeight_getBlockIdByHeight hs'.built hc.2.1
  · rename_i hc
    cases hfind : s'.db.hashHeight (s.db.getBlockIdByHeight k) with
    | none => rfl
    | some k' =>
      obtain ⟨hk', hid⟩ := getBlockIdByHeight_of_hashHeight hs'.built hfind
      obtain ⟨rfl, -⟩ := common_of_id hprims hs hs' hsep hk hk' hid.symm
      exact absurd ⟨hk, hk', hid.symm⟩ hc

end Common

/-- For every node and every main-chain start block: the sparse chain lists main-chain
blocks by strictly descending heights, from the start block to genesis, and each gap is at
most twice the one before. A second node with the same genesis answers it with the height
of the highest listed block that is common to both chains; all blocks up to it are common,
and it is at most twice as far from the start block as the fork is. -/
theorem sparse_chain_locates {N N' : NodeEnv} (hprims : N'.prims = N.prims) {s s' : Node} (h : (nodeLts N).Reachable s)
    (h' : (nodeLts N').Reachable s') {start : Hash} {height : Nat} (hstart : s.db.hashHeight start = some height) :
    ∃ heights : List Nat, (s.doBuildSparseChain start = some (heights.map s.db.getBlockIdByHeight) ∧
        (heights.map s.db.getBlockIdByHeight).head? = some start ∧ (∀ k ∈ heights, k < s.db.getChainHeight) ∧
        heights.Pairwise (· > ·) ∧ heights.getLast? = some 0 ∧
        ∀ i a b c, heights[i]? = some a → heights[i + 1]? = some b → heights[i + 2]? = some c → b - c ≤ 2 * (a - b)) ∧
      (s.db.getBlockIdByHeight 0 = s'.db.getBlockIdByHeight 0 → IdsSeparate N s s' →
        ∃ f found, ForkPoint s.db s'.db height f ∧
          findBlockchainSupplement s'.db (heights.map s.db.getBlockIdByHeight) = found ∧
          found ∈ heights ∧ Common s.db s'.db found ∧ (∀ k ∈ heights, Common s.db s'.db k → k ≤ found) ∧
          (∀ k ≤ found, Common s.db s'.db k) ∧ height - found ≤ 2 * (height - f)) := by
  have hs := (node_inv h).ok
  have hs' := (node_inv h').ok
  obtain ⟨hlt, hid⟩ := getBlockIdByHeight_of_hashHeight hs.built hstart
  have hdescends := descends_sparseHeights height
  have hhead := head?_sparseHeights height
  have hrange : ∀ k ∈ sparseHeights height, k < s.db.getChainHeight := by
    intro k hk
    have := mem_sparseHeights_le hk
    omega
  refine ⟨sparseHeights height, ⟨?_, ?_, hrange, hdescends.pairwise, hdescends.getLast?, ?_⟩, ?_⟩
  · rw [Node.doBuildSparseChain, hstart]
    exact congrArg some (buildSparseMainChain_eq hs.built hlt)
  · rw [head?_map, hhead, Option.map_some, hid]
  · intro i a b c
    exact hdescends.gaps
  · intro hgenesis hsep
    have hpos := hs'.built.pos
    obtain ⟨f, hf⟩ := exists_forkPoint (show Common s.db s'.db 0 from ⟨by omega, hpos, hgenesis⟩) height
    have hbelow := hf.common.below hprims hs hs' hsep
    have hcommon : ∀ k ∈ sparseHeights height, (Common s.db s'.db k ↔ k ≤ f) :=
      fun k hk => ⟨hf.highest k (mem_sparseHeights_le hk), hbelow k⟩
    have hsearch : findBlockchainSupplement s'.db ((sparseHeights height).map s.db.getBlockIdByHeight) =
        ((sparseHeights height).find? (· ≤ f)).getD 0 := by
      rw [findBlockchainSupplement, findSome?_map, findSome?_eq_find?]
      intro k hk
      rw [Function.comp_apply, hashHeight_common hprims hs hs' hsep (hrange k hk)]
      simp only [hcommon k hk]
    obtain ⟨rest, hrest⟩ : ∃ rest, sparseHeights height = height :: rest :=
      ⟨(sparseHeights height).tail, (cons_head?_tail hhead).symm⟩
    obtain ⟨found, hfound, hbound⟩ := Discrete.Descends.find_le (hrest ▸ hdescends) (le_refl height)
      (by omega) (show height ≤ f → height - height ≤ 2 * (height - f) by have := hf.le; omega)
    rw [← hrest] at hfound
    obtain ⟨hmem, hle, hmax⟩ := find?_le_highest hdescends.pairwise hfound
    refine ⟨f, found, hf, by rw [hsearch, hfound]; rfl, hmem, hbelow found hle, ?_, ?_, hbound⟩
    · intro k hk hc
      exact hmax k hk ((hcommon k hk).mp hc)
    · intro k hk
      exact hbelow k (hk.trans hle)

/-- Two blocks on genesis against one of another branch: the answer is genesis. -/
theorem sparse_chain_locates_genesis :
    ∃ s s' start, (nodeLts flatNode).Reachable s ∧ (nodeLts flatNode).Reachable s' ∧ s.db.hashHeight start = some 2 ∧
      ∃ (heights : List Nat) (f found : Nat), s.doBuildSparseChain start = some (heights.map s.db.getBlockIdByHeight) ∧
        ForkPoint s.db s'.db 2 f ∧ findBlockchainSupplement s'.db (heights.map s.db.getBlockIdByHeight) = found ∧
        2 - found ≤ 2 * (2 - f) := by
  obtain ⟨s, hrun, hp⟩ := (Option.any_eq_true _ _).mp (show
    (addBlocks flatNode 2 flatGenesis (mineOn 2 flatGenesis 0)).any (fun s =>
      (addBlocks flatNode 2 flatGenesis [forkOne]).any fun s' =>
        decide (s.db.hashHeight (s.db.getBlockIdByHeight 2) = some 2 ∧
          s.db.getBlockIdByHeight 0 = s'.db.getBlockIdByHeight 0 ∧ IdsSeparate flatNode s s')) = true by
    decide +kernel)
  obtain ⟨s', hrun', hp⟩ := (Option.any_eq_true _ _).mp hp
  obtain ⟨hstart, hgenesis, hsep⟩ := of_decide_eq_true hp
  have h : (nodeLts flatNode).Reachable s := addBlocks_run id .inl rfl hrun
  have h' : (nodeLts flatNode).Reachable s' := addBlocks_run id .inl rfl hrun'
  obtain ⟨heights, ⟨hbuild, -⟩, hfind⟩ := sparse_chain_locates rfl h h' hstart
  obtain ⟨f, found, hf, hfound, -, -, -, -, hbound⟩ := hfind hgenesis hsep
  exact ⟨s, s', _, h, h', hstart, heights, f, found, hbuild, hf, hfound, hbound⟩

end Discrete.L4
