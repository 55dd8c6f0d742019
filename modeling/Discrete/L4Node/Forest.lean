import Mathlib.Data.List.Chain
import Discrete.L4Node.ForkChoice
import Discrete.L4Node.Recovery

/-!
# The forest of alternative blocks

The stored alternative blocks are meant to be a forest on the main chain: the parent of
each is another of them or a main-chain block. Nothing looks after the blocks that hang on
a block that goes.

* `unrooted_alternative`: after a rollback the parent of a stored block can be gone.
* `alternative_forest`: where no stored block hangs on a branch that is tried, on the
  blocks it would replace or on the blocks a rollback removes, the forest, its heights and
  work and its index are right in every state.
-/
namespace Discrete.L4
open List L1 L2 L3

variable {N : NodeEnv} {K : Block → Prop} {s s' : Node}

/-- What is recorded of the block `h`, among the alternatives or on the main chain: its
height and its work. -/
inductive KnownAs (s : Node) (h : Hash) : Nat → UInt64 → Prop where
  | stored {e : BlockEntry} : s.findAlternative h = some e → KnownAs s h e.height e.cumulativeDifficulty
  | main {k : Nat} : s.db.hashHeight h = some k → KnownAs s h k (s.db.getBlockMeta k).cumulativeDifficulty

/-- The alternative blocks are a forest on the main chain. -/
structure Forest (N : NodeEnv) (s : Node) : Prop where
  named : ∀ x ∈ s.alternativeChains.entries, x.1 = N.prims.getBlockHash x.2.bl
  parent : ∀ x ∈ s.alternativeChains.entries, ∃ height work, KnownAs s x.2.bl.previousBlockHash height work ∧
    x.2.height = height + 1 ∧ x.2.cumulativeDifficulty =
      work + getDifficultyForNextBlock N.toEnv s.db s.findAlternative x.2.bl.previousBlockHash
  apart : ∀ x ∈ s.alternativeChains.entries, s.db.hashHeight x.1 = none
  index : s.orphanBlocksIndex.Perm (s.alternativeChains.entries.map fun x => (x.2.height, x.1))

/-! ## Parents -/

/-- The ids of the main chain. -/
def Node.mainIds (N : NodeEnv) (s : Node) : List Hash := s.db.storedBlocks.map fun sb => N.prims.getBlockHash sb.block

theorem getElem?_mainIds (hs : NodeOk N s) {k : Nat} {h : Hash} :
    (s.mainIds N)[k]? = some h ↔ s.db.hashHeight h = some k := by
  rw [hs.built.hashHeight, Node.mainIds, getElem?_map, Option.map_eq_some_iff]
  refine exists_congr fun sb => and_congr_right fun hsb => ?_
  rw [(hs.built.linked hsb).hash]

theorem mem_mainIds (hs : NodeOk N s) {h : Hash} : h ∈ s.mainIds N ↔ ∃ k, s.db.hashHeight h = some k := by
  rw [mem_iff_getElem?]
  exact exists_congr fun k => getElem?_mainIds hs

theorem mainIds_nodup (hs : NodeOk N s) : (s.mainIds N).Nodup := by
  rw [nodup_iff_getElem?_ne_getElem?]
  intro i j hij hj he
  rw [getElem?_eq_getElem hj] at he
  have hi := (getElem?_mainIds hs).mp he
  rw [(getElem?_mainIds hs).mp (getElem?_eq_getElem hj), Option.some.injEq] at hi
  omega

/-- A block on the main chain or among the alternatives. -/
def Node.knows (N : NodeEnv) (s : Node) (h : Hash) : Prop :=
  (∃ x ∈ s.alternativeChains.entries, x.1 = h) ∨ h ∈ s.mainIds N

theorem Node.knows.knownAs {h : Hash} (hs : NodeOk N s) (hknows : s.knows N h) :
    ∃ height work, KnownAs s h height work := by
  rcases hknows with ⟨x, hx, rfl⟩ | hmain
  · have hfind := MultiIndex.find_eq_some.mpr ⟨hx, rfl⟩
    exact ⟨_, _, .stored (by rw [Node.findAlternative, hfind]; rfl)⟩
  · obtain ⟨k, hk⟩ := (mem_mainIds hs).mp hmain
    exact ⟨_, _, .main hk⟩

/-- An alternative block has a parent, whose lineage it extends. -/
theorem LinedEntry.parent {x : Hash × BlockEntry} (h : LinedEntry N K x) :
    ∃ p l, x.2.bl.previousBlockHash = N.prims.getBlockHash p ∧ Lineage N K p l ∧ l.length = x.2.height ∧
      x.2.cumulativeDifficulty = tipWork l + requiredDifficulty N.currency.testnet l := by
  obtain ⟨l, hl, hlen, hcum⟩ := h.lineage
  have hsettled := h.settled
  cases hl with
  | genesis =>
    rw [length_singleton] at hlen
    unfold settledHeight difficultyWindow at hsettled
    omega
  | child _ hp hprev =>
    rw [length_cons] at hlen
    exact ⟨_, _, hprev, hp, by omega, hcum⟩

/-- Whatever is recorded of a block, its lineage says the same. -/
theorem Traced.knownAs (h : Traced N K s) (hK : CollisionFree N K) {p : Block} {l : List (UInt64 × UInt64)}
    (hl : Lineage N K p l) {height : Nat} {work : UInt64} (hknown : KnownAs s (N.prims.getBlockHash p) height work) :
    height + 1 = l.length ∧ work = tipWork l := by
  cases hknown with
  | stored he =>
    obtain ⟨hhash, l', hl', hlen, hcum⟩ := h.found he
    cases hK.injective hl'.known hl.known hhash
    cases hl'.unique hK hl
    exact ⟨hlen.symm, hcum⟩
  | main hk =>
    obtain ⟨sb, hsb, hhash, hl'⟩ := h.stored hK hk
    have hmeta : s.db.metas[height]? = some sb.entry := by
      rw [h.ok.built.metas, getElem?_map, hsb]
      rfl
    have hlt := (List.getElem?_eq_some_iff.mp hmeta).1
    cases hK.injective hl'.known hl.known hhash
    cases hl'.unique hK hl
    rw [length_workBefore, workBefore_succ hmeta, h.ok.built.getBlockMeta hsb, Db.getChainHeight]
    exact ⟨by omega, rfl⟩

/-- The alternative blocks stand on known blocks, apart from the main chain and under
their heights in the index. -/
structure Grown (N : NodeEnv) (K : Block → Prop) (s : Node) : Prop where
  blocks : BlocksIn K s
  alts : ∀ x ∈ s.alternativeChains.entries, LinedEntry N K x
  parents : ∀ x ∈ s.alternativeChains.entries, s.knows N x.2.bl.previousBlockHash
  apart : ∀ x ∈ s.alternativeChains.entries, x.1 ∉ s.mainIds N
  checked : ∀ x ∈ s.alternativeChains.entries, (N.checkpoints.checkBlock x.2.height x.1).1 = true
  index : s.orphanBlocksIndex.Perm (s.alternativeChains.entries.map fun x => (x.2.height, x.1))

section Grown
variable (hK : CollisionFree N K) (h : Grown N K s) (hs : NodeOk N s)
include h hs

theorem Grown.traced : Traced N K s := ⟨hs, h.blocks, h.alts⟩

/-- The walk from a known block comes to an end. -/
theorem Grown.walk_isSome (n : Nat) {p : Hash} (hp : s.knows N p) :
    (difficultyWalk s.db s.findAlternative n p).isSome := by
  refine difficultyWalk_isSome (C := fun p => p = nullHash ∨ s.knows N p) ?_ n (.inr hp)
  intro p hp hne
  have hp := hp.resolve_left hne
  cases hfind : s.alternativeChains.find p with
  | some x =>
    obtain ⟨hx, -⟩ := MultiIndex.find_eq_some.mp hfind
    exact .inl ⟨x.2, by rw [Node.findAlternative, hfind]; rfl, .inr (h.parents x hx)⟩
  | none =>
    refine .inr ⟨by rw [Node.findAlternative, hfind]; rfl, ?_⟩
    have hmain : p ∈ s.mainIds N := by
      rcases hp with ⟨x, hx, hkey⟩ | hmain
      · exact absurd hkey (MultiIndex.find_eq_none.mp hfind x hx)
      · exact hmain
    obtain ⟨k, hk⟩ := (mem_mainIds hs).mp hmain
    obtain ⟨sb, hsb, -⟩ := hs.built.hashHeight.mp hk
    refine ⟨k, hk, ?_⟩
    rw [hs.built.getBlockMeta hsb, (hs.built.linked hsb).prevHash]
    cases k with
    | zero => exact .inl rfl
    | succ k =>
      obtain ⟨sb', hsb'⟩ : ∃ sb', s.db.storedBlocks[k]? = some sb' := by
        have := (List.getElem?_eq_some_iff.mp hsb).1
        exact ⟨_, getElem?_eq_getElem (by omega)⟩
      rw [Db.idBefore, hs.built.getBlockIdByHeight hsb']
      exact .inr (.inr ((mem_mainIds hs).mpr ⟨k, hs.built.hashHeight.mpr ⟨sb', hsb', rfl⟩⟩))

include hK

theorem Grown.height_of_parent {x : Hash × BlockEntry} (hx : x ∈ s.alternativeChains.entries) {height : Nat} {work : UInt64}
    (hknown : KnownAs s x.2.bl.previousBlockHash height work) : x.2.height = height + 1 := by
  obtain ⟨p, l, hprev, hl, hlen, -⟩ := (h.alts x hx).parent
  rw [hprev] at hknown
  rw [← hlen, ((h.traced hs).knownAs hK hl hknown).1]

/-- A parent among the alternatives is one below. -/
theorem Grown.height_of_entry {x y : Hash × BlockEntry} (hx : x ∈ s.alternativeChains.entries)
    (hy : y ∈ s.alternativeChains.entries) (hprev : y.1 = x.2.bl.previousBlockHash) : x.2.height = y.2.height + 1 := by
  have hfind := MultiIndex.find_eq_some.mpr ⟨hy, hprev⟩
  exact h.height_of_parent hK hs hx (.stored (by rw [Node.findAlternative, hfind]; rfl))

/-- The oldest ancestor among the alternatives sits on a settled main chain. -/
theorem Grown.settled : ∀ (n : Nat) {x : Hash × BlockEntry}, x ∈ s.alternativeChains.entries → x.2.height = n →
    settledHeight ≤ s.db.getChainHeight := by
  intro n
  induction n using Nat.strong_induction_on with
  | _ n ih =>
    intro x hx hn
    rcases h.parents x hx with ⟨y, hy, hprev⟩ | hmain
    · have hstep := h.height_of_entry hK hs hx hy hprev
      exact ih y.2.height (by omega) hy rfl
    · obtain ⟨k, hk⟩ := (mem_mainIds hs).mp hmain
      have hstep := h.height_of_parent hK hs hx (.main hk)
      have hsettled := (h.alts x hx).settled
      obtain ⟨sb, hsb, -⟩ := hs.built.hashHeight.mp hk
      have hlt := (List.getElem?_eq_some_iff.mp hsb).1
      have hlen := hs.built.length
      omega

theorem Grown.forest : Forest N s where
  named x hx := (h.alts x hx).id
  parent := by
    intro x hx
    obtain ⟨height, work, hknown⟩ := (h.parents x hx).knownAs hs
    obtain ⟨p, l, hprev, hl, hlen, hcum⟩ := (h.alts x hx).parent
    have hsettled := (h.alts x hx).settled
    refine ⟨height, work, hknown, h.height_of_parent hK hs hx hknown, ?_⟩
    have hdifficulty := (h.traced hs).difficulty hK hl fun _ =>
      hprev ▸ h.walk_isSome hs _ (h.parents x hx)
    rw [sampleDifficulty_settled _ (h.settled hK hs _ hx rfl) (by omega)] at hdifficulty
    rw [hprev] at hknown ⊢
    rw [((h.traced hs).knownAs hK hl hknown).2, hdifficulty]
    exact hcum
  apart := by
    intro x hx
    rw [Option.eq_none_iff_forall_ne_some]
    intro k hk
    exact h.apart x hx ((mem_mainIds hs).mpr ⟨k, hk⟩)
  index := h.index

end Grown

/-! ## Storing and erasing -/

variable {b : Block} {prevalidated : Option Hash} {br : Branch} {bei : BlockEntry} {isACheckpoint : Bool}

/-- What a block is stored with: the row of stored blocks it extends. -/
theorem Accepted.row (h : Accepted N s b (N.prims.getBlockHash b) prevalidated br bei isACheckpoint) :
    ∃ walk, (∀ y ∈ walk, y ∈ s.alternativeChains.entries) ∧
      ((N.prims.getBlockHash b, bei) :: walk).IsChain (fun y z => z.1 = y.2.bl.previousBlockHash) ∧
      br.altChain = (walk.map Prod.fst).reverse := by
  obtain ⟨-, rfl, -, -⟩ := h.entry
  cases h.branchOf with
  | main _ _ halts => exact ⟨[], by simp, .singleton _, halts⟩
  | @stored walk x front hmem hlinked hhead _ hfind halts =>
    refine ⟨walk, hmem, ?_, halts⟩
    cases walk with
    | nil => cases hhead
    | cons y walk =>
      cases hhead
      exact .cons_cons (MultiIndex.find_eq_some.mp hfind).2 hlinked

theorem BranchOf.knows (hs : NodeOk N s) {prev : Hash} (h : BranchOf N s prev br) : s.knows N prev := by
  cases h with
  | main _ hk => exact .inr ((mem_mainIds hs).mpr ⟨_, hk⟩)
  | stored _ _ _ _ hfind => exact .inl ⟨_, MultiIndex.find_eq_some.mp hfind⟩

/-- A block that is not known yet. -/
theorem haveBlock_false (hs : NodeOk N s) {h : Hash} (hnew : s.haveBlock h = false) :
    (∀ x ∈ s.alternativeChains.entries, x.1 ≠ h) ∧ h ∉ s.mainIds N := by
  rw [Node.haveBlock, Bool.or_eq_false_iff] at hnew
  refine ⟨?_, ?_⟩
  · have hnone : s.alternativeChains.find h = none := by
      simpa [Node.findAlternative] using hnew.2
    exact MultiIndex.find_eq_none.mp hnone
  · intro hmain
    obtain ⟨k, hk⟩ := (mem_mainIds hs).mp hmain
    rw [hk] at hnew
    cases hnew.1

theorem mainIds_congr (h : s'.db = s.db) : s'.mainIds N = s.mainIds N := by
  rw [Node.mainIds, h]
  rfl

theorem insertAlternative_index {id : Hash} (h : s.insertAlternative id bei = some s')
    (hindex : s.orphanBlocksIndex.Perm (s.alternativeChains.entries.map fun x => (x.2.height, x.1))) :
    s'.orphanBlocksIndex.Perm (s'.alternativeChains.entries.map fun x => (x.2.height, x.1)) := by
  obtain ⟨alts, halts, rfl⟩ := insertAlternative_some h
  have hperm := (MultiIndex.perm_insert halts).map fun x => (x.2.height, x.1)
  exact (hindex.cons _).trans hperm.symm

theorem Grown.insert (hK : CollisionFree N K) (h : Grown N K s) (hcalm : Calm N s) (hb : K b)
    (hsettled : settledHeight ≤ getBlockHeight b) (hnew : N.prims.getBlockHash b ∉ s.mainIds N)
    (haccepted : Accepted N s b (N.prims.getBlockHash b) prevalidated br bei isACheckpoint)
    (hinsert : s.insertAlternative (N.prims.getBlockHash b) bei = some s') : Grown N K s' := by
  have hlined : Lined N K s := ⟨hcalm, h.blocks, h.alts⟩
  obtain ⟨hlined', -, hdb, hmem⟩ := hlined.insert hK hb hsettled haccepted hinsert
  have hmain := mainIds_congr (N := N) hdb
  obtain ⟨-, hbei, -, hcheck⟩ := haccepted.entry
  have hknows : ∀ {p}, s.knows N p → s'.knows N p := by
    intro p hp
    rcases hp with ⟨y, hy, hkey⟩ | hp
    · exact .inl ⟨y, (hmem y).mpr (.inr hy), hkey⟩
    · exact .inr (hmain ▸ hp)
  refine ⟨hlined'.blocks, hlined'.alts, ?_, ?_, ?_, ?_⟩
  · intro x hx
    rcases (hmem x).mp hx with rfl | hx
    · simp only [hbei]
      exact hknows (haccepted.branchOf.knows hcalm.ok)
    · exact hknows (h.parents x hx)
  · intro x hx
    rw [hmain]
    rcases (hmem x).mp hx with rfl | hx
    · exact hnew
    · exact h.apart x hx
  · intro x hx
    rcases (hmem x).mp hx with rfl | hx
    · simp only [hbei, hcheck]
    · exact h.checked x hx
  · exact insertAlternative_index hinsert h.index

/-- Erasing keeps the index. -/
theorem eraseAlternatives_index : ∀ (hashes : List Hash) {s : Node},
    (∀ x ∈ s.alternativeChains.entries, x.2.height = getBlockHeight x.2.bl) →
    s.orphanBlocksIndex.Perm (s.alternativeChains.entries.map fun x => (x.2.height, x.1)) →
    (s.eraseAlternatives hashes).orphanBlocksIndex.Perm
      ((s.eraseAlternatives hashes).alternativeChains.entries.map fun x => (x.2.height, x.1))
  | [], _, _, hindex => hindex
  | k :: hashes, s, hheight, hindex => by
    refine eraseAlternatives_index hashes (s := s.eraseAlternative k) ?_ ?_
    · intro x hx
      exact hheight x (MultiIndex.mem_erase.mp hx).1
    · have hfilter := hindex.filter fun x => decide (x ≠ (getBlockHeight (s.alternativeAt k).bl, k))
      rw [List.filter_map] at hfilter
      refine hfilter.trans (List.Perm.of_eq (congrArg _ (filter_congr ?_)))
      intro x hx
      rw [Function.comp_apply, decide_eq_decide, not_iff_not, Prod.mk.injEq]
      constructor
      · exact And.right
      · intro hkey
        have hfind := MultiIndex.find_eq_some.mpr ⟨hx, hkey⟩
        rw [hheight x hx, Node.alternativeAt, Node.findAlternative, hfind]
        exact ⟨rfl, hkey⟩

/-! ## Rows of stored blocks -/

/-- Heights grow along a branch. -/
theorem Grown.sorted (hK : CollisionFree N K) (h : Grown N K s) (hs : NodeOk N s) {walk : List (Hash × BlockEntry)}
    (hmem : ∀ y ∈ walk, y ∈ s.alternativeChains.entries)
    (hlinked : walk.IsChain fun y z => z.1 = y.2.bl.previousBlockHash) :
    (walk.map Prod.fst).reverse.Pairwise fun a b => (s.alternativeAt a).height < (s.alternativeAt b).height := by
  have hat : ∀ y ∈ walk, s.alternativeAt y.1 = y.2 := by
    intro y hy
    rw [Node.alternativeAt, Node.findAlternative, MultiIndex.find_eq_some.mpr ⟨hmem y hy, rfl⟩]
    rfl
  have hdescends : (walk.map fun y => y.2.height).IsChain (· > ·) := by
    rw [isChain_map]
    refine hlinked.imp_of_mem_imp ?_
    intro y z hy hz hprev
    have := h.height_of_entry hK hs (hmem y hy) (hmem z hz) hprev
    omega
  rw [isChain_iff_pairwise, pairwise_map] at hdescends
  rw [pairwise_reverse, pairwise_map]
  refine hdescends.imp_of_mem ?_
  intro y z hy hz hlt
  rw [hat y hy, hat z hz]
  exact hlt

/-- The height at which a branch leaves the main chain. -/
def Node.forkHeight (s : Node) (br : Branch) : Nat := (s.splitHeight br.altChain).getD br.height

/-- The stored block hangs neither on the branch nor on a main-chain block that the branch
would replace. -/
def OffBranch (s : Node) (br : Branch) (x : Hash × BlockEntry) : Prop :=
  (∃ y ∈ s.alternativeChains.entries, y.1 = x.2.bl.previousBlockHash ∧ y.1 ∉ br.altChain) ∨
    ∃ k < s.forkHeight br, s.db.hashHeight x.2.bl.previousBlockHash = some k

/-- A branch that was just extended forks where it did before. -/
theorem Accepted.splitHeight (h : Accepted N s b (N.prims.getBlockHash b) prevalidated br bei isACheckpoint)
    (hinsert : s.insertAlternative (N.prims.getBlockHash b) bei = some s')
    (hnew : ∀ x ∈ s.alternativeChains.entries, x.1 ≠ N.prims.getBlockHash b) :
    s'.splitHeight (br.altChain ++ [N.prims.getBlockHash b]) = some (s.forkHeight br) := by
  obtain ⟨hself, hother⟩ := alternativeAt_inserted hinsert
  obtain ⟨walk, hmem, -, halts⟩ := h.row
  obtain ⟨-, hbei, -, -⟩ := h.entry
  rw [Node.forkHeight, Node.splitHeight, Node.splitHeight, head?_append]
  cases hfront : br.altChain.head? with
  | none => simp only [Option.none_or, head?_cons, Option.map_some, Option.map_none, Option.getD_none, hself, hbei]
  | some k =>
    have hk : k ∈ br.altChain := mem_of_mem_head? hfront
    rw [halts, mem_reverse, List.mem_map] at hk
    obtain ⟨y, hy, rfl⟩ := hk
    have hat : s.alternativeAt y.1 = y.2 := by
      rw [Node.alternativeAt, Node.findAlternative, MultiIndex.find_eq_some.mpr ⟨hmem y hy, rfl⟩]
      rfl
    simp only [Option.some_or, Option.map_some, Option.getD_some, hat, hother y (hmem y hy) (hnew y (hmem y hy))]

/-! ## Handing back -/

/-- The blocks of `l` have been handed back: those that were stored have a known parent. -/
structure HandedBack (N : NodeEnv) (s : Node) (l : List Block) (s' : Node) : Prop where
  db : s'.db = s.db
  kept : ∀ x ∈ s.alternativeChains.entries, x ∈ s'.alternativeChains.entries
  added : ∀ x ∈ s'.alternativeChains.entries, x ∈ s.alternativeChains.entries ∨
    x.2.bl ∈ l ∧ s'.knows N x.2.bl.previousBlockHash ∧ (N.checkpoints.checkBlock x.2.height x.1).1 = true
  index : s.orphanBlocksIndex.Perm (s.alternativeChains.entries.map fun x => (x.2.height, x.1)) →
    s'.orphanBlocksIndex.Perm (s'.alternativeChains.entries.map fun x => (x.2.height, x.1))

variable {l : List Block}

theorem HandedBack.same (hdb : s'.db = s.db) (halts : s'.alternativeChains = s.alternativeChains)
    (hindex : s'.orphanBlocksIndex = s.orphanBlocksIndex) : HandedBack N s l s' := by
  refine ⟨hdb, ?_, ?_, ?_⟩
  · rw [halts]
    exact fun _ hx => hx
  · rw [halts]
    exact fun _ hx => .inl hx
  · rw [halts, hindex]
    exact id

theorem HandedBack.knows (h : HandedBack N s l s') {p : Hash} (hp : s.knows N p) : s'.knows N p := by
  rcases hp with ⟨y, hy, hkey⟩ | hp
  · exact .inl ⟨y, h.kept y hy, hkey⟩
  · exact .inr (mainIds_congr (N := N) h.db ▸ hp)

theorem HandedBack.trans {s'' : Node} {l' : List Block} (h : HandedBack N s l s') (h' : HandedBack N s' l' s'') :
    HandedBack N s (l ++ l') s'' := by
  refine ⟨h'.db.trans h.db, fun x hx => h'.kept x (h.kept x hx), ?_, fun hindex => h'.index (h.index hindex)⟩
  intro x hx
  rcases h'.added x hx with hx | ⟨hl, hrest⟩
  · rcases h.added x hx with hx | ⟨hl, hknows, hcheck⟩
    · exact .inl hx
    · exact .inr ⟨mem_append_left _ hl, h'.knows hknows, hcheck⟩
  · exact .inr ⟨mem_append_right _ hl, hrest⟩

/-- A block without more work than the tip is handed back. -/
theorem Lined.handedBack (hK : CollisionFree N K) {fuel : Nat} {d : Block}
    {outcome : Outcome} (h : Lined N K s) (hd : K d) (hsettled : settledHeight ≤ getBlockHeight d)
    {l : List (UInt64 × UInt64)} (hl : Lineage N K d l) (hle : tipWork l ≤ s.tipDifficulty)
    (hpoint : N.checkpoints.checkBlock (getBlockHeight d) (N.prims.getBlockHash d) ≠ (true, true))
    (hcall : handleAlternativeBlock N fuel s d (N.prims.getBlockHash d) prevalidated = some (outcome, s')) :
    Lined N K s' ∧ HandedBack N s [d] s' := by
  rcases h.quiet hK hd hsettled hl hle hpoint hcall with
    ⟨hcalm, hdb, halts, hindex⟩ | ⟨br, bei, haccepted, hinsert, -⟩
  · refine ⟨⟨hcalm, ⟨?_, ?_⟩, ?_⟩, .same hdb halts hindex⟩
    · rw [hdb]
      exact h.blocks.main
    · rw [halts]
      exact h.blocks.alts
    · rw [halts]
      exact h.alts
  · obtain ⟨hlined, -, hdb, hmem⟩ := h.insert hK hd hsettled haccepted hinsert
    obtain ⟨-, hbei, -, hcheck⟩ := haccepted.entry
    refine ⟨hlined, hdb, fun x hx => (hmem x).mpr (.inr hx), ?_, ?_⟩
    · intro x hx
      rcases (hmem x).mp hx with rfl | hx
      · refine .inr ⟨by simp [hbei], ?_, by simp only [hbei, hcheck]⟩
        simp only [hbei]
        rcases haccepted.branchOf.knows h.calm.ok with ⟨y, hy, hkey⟩ | hmain
        · exact .inl ⟨y, (hmem y).mpr (.inr hy), hkey⟩
        · exact .inr (mainIds_congr (N := N) hdb ▸ hmain)
      · exact .inl hx
    · exact insertAlternative_index hinsert

theorem Lined.handBack (hK : CollisionFree N K) {fuel : Nat} : ∀ {l : List Block} {s s' : Node} {outcome : Outcome},
    Lined N K s → (∀ d ∈ l, K d ∧ settledHeight ≤ getBlockHeight d ∧
      N.checkpoints.checkBlock (getBlockHeight d) (N.prims.getBlockHash d) ≠ (true, true) ∧
      ∃ l, Lineage N K d l ∧ tipWork l ≤ s.tipDifficulty) →
    L4.handBack (fun s b => handleAlternativeBlock N fuel s b (N.prims.getBlockHash b) none) s l =
      some (outcome, s') → Lined N K s' ∧ HandedBack N s l s'
  | [], s, s', outcome, hs, _, h => by
    cases h
    exact ⟨hs, .same rfl rfl rfl⟩
  | d :: l, s, s', outcome, hs, hl, h => by
    obtain ⟨hd, hsettled, hpoint, ld, hld, hle⟩ := hl d (by simp)
    rw [L4.handBack] at h
    split at h
    · rename_i s₁ heq
      obtain ⟨hs₁, hstep⟩ := hs.handedBack hK hd hsettled hld hle hpoint heq
      obtain ⟨hs', hrest⟩ := Lined.handBack hK hs₁ (by
        intro d' hd'
        rw [tipDifficulty_congr hstep.db]
        exact hl d' (by simp [hd'])) h
      exact ⟨hs', hstep.trans hrest⟩
    · obtain ⟨hs', hstep⟩ := hs.handedBack hK hd hsettled hld hle hpoint h
      exact ⟨hs', (hstep.trans (.same rfl rfl rfl) : HandedBack N s ([d] ++ l) s')⟩

/-! ## Switching -/

/-- Above the last checkpoint that the chain has reached. -/
theorem isAlternativeBlockAllowed_above {c : Checkpoints} {chainHeight height k : Nat} {id : Hash}
    (h : c.isAlternativeBlockAllowed chainHeight height = true) (hk : k ≤ chainHeight)
    (hpoint : (c.checkBlock k id).2 = true) : k < height := by
  obtain ⟨p, hp⟩ : ∃ p, (k, p) ∈ c.points := by
    unfold Checkpoints.checkBlock at hpoint
    split at hpoint
    · cases hpoint
    · rename_i p hp
      obtain ⟨l₁, l₂, hl, -⟩ := lookup_eq_some_iff.mp hp
      exact ⟨p, by simp [hl]⟩
  have hmem : (k, p) ∈ c.points.filter fun q => decide (q.1 ≤ chainHeight) := by
    rw [mem_filter]
    exact ⟨hp, decide_eq_true hk⟩
  unfold Checkpoints.isAlternativeBlockAllowed at h
  split at h; · cases h
  split at h; · cases h
  split at h
  · rename_i hnone
    rw [getLast?_eq_none_iff.mp hnone] at hmem
    cases hmem
  · rename_i q hq
    have hlt := of_decide_eq_true h
    have hascending := (pairwise_map.mp c.ascending).filter fun q => decide (q.1 ≤ chainHeight)
    obtain ⟨init, hinit⟩ := getLast?_eq_some_iff.mp hq
    rw [hinit] at hmem hascending
    rcases mem_append.mp hmem with hmem | hmem
    · have := (pairwise_append.mp hascending).2.2 _ hmem q (by simp)
      simp only at this
      omega
    · cases mem_singleton.mp hmem
      exact hlt

section Switch
variable {altChain : List Hash} {splitHeight : Nat} {disconnected : List Block} {s₂ : Node}
  {base old new : List StoredBlock}

/-- The ids of the blocks that a branch puts on the main chain. -/
theorem Replaced.newIds (h : Lined N K s) (hversions : s.versionsOk altChain)
    (hr : Replaced s altChain splitHeight disconnected s₂ base old new) :
    new.map (fun sb => N.prims.getBlockHash sb.block) = altChain := by
  have hids : altChain.map (fun k => N.prims.getBlockHash (s.alternativeAt k).bl) = altChain.map id := by
    refine map_congr_left ?_
    intro k hk
    exact (h.alts _ (alternativeAt_mem (hversions k hk))).id.symm
  have hconnected := congrArg (List.map N.prims.getBlockHash) hr.connected
  rw [List.map_map, List.map_map] at hconnected
  exact (hconnected.trans hids).trans (List.map_id altChain)

/-- The blocks that a branch replaces are at heights without a checkpoint, or are not the
ones it names: the branch has a block there that passed. -/
theorem Replaced.no_checkpoint {id : Hash} (h : Grown N K s) (hlined : Lined N K s) (hs₂ : NodeOk N s₂)
    (hversions : s.versionsOk (altChain ++ [id]))
    (hr : Replaced s (altChain ++ [id]) splitHeight disconnected s₂ base old new)
    (hallowed : N.checkpoints.isAlternativeBlockAllowed s.db.getChainHeight (getBlockHeight (s.alternativeAt id).bl) = true) :
    ∀ d ∈ disconnected, N.checkpoints.checkBlock (getBlockHeight d) (N.prims.getBlockHash d) ≠ (true, true) := by
  intro d hd hpoint
  rw [hr.disconnected] at hd
  obtain ⟨sb, hsb, rfl⟩ := List.mem_map.mp hd
  obtain ⟨j, hj⟩ := getElem?_of_mem hsb
  have hget : s.db.storedBlocks[base.length + j]? = some sb := by
    rw [hr.before, getElem?_append_right (by omega), Nat.add_sub_cancel_left, hj]
  have hlt := (List.getElem?_eq_some_iff.mp hget).1
  have hlen := hlined.calm.ok.built.length
  rw [(hlined.calm.ok.built.linked hget).index] at hpoint
  -- the branch goes above this height
  have hbelow := isAlternativeBlockAllowed_above hallowed (by omega) (congrArg Prod.snd hpoint)
  obtain ⟨n, tip, hn, htip, hblock⟩ := hr.tip hs₂
  rw [← hblock, (hs₂.built.linked htip).index] at hbelow
  have hlen₂ := hs₂.built.length
  obtain ⟨sb', hsb'⟩ : ∃ sb', s₂.db.storedBlocks[base.length + j]? = some sb' :=
    ⟨_, getElem?_eq_getElem (by omega)⟩
  have hindex := (hs₂.built.linked hsb').index
  rw [hr.after, getElem?_append_right (by omega), Nat.add_sub_cancel_left] at hsb'
  have hmem := List.mem_map_of_mem (f := StoredBlock.block) (mem_of_getElem? hsb')
  rw [hr.connected] at hmem
  obtain ⟨k, hk, hkb⟩ := List.mem_map.mp hmem
  have hx := alternativeAt_mem (hversions k hk)
  have hcheck := h.checked _ hx
  rw [(h.alts _ hx).index] at hcheck
  simp only [hkb, hindex] at hcheck
  -- so both blocks are the one the checkpoint names
  have hsame : k = N.prims.getBlockHash sb.block := by
    unfold Checkpoints.checkBlock at hcheck hpoint
    split at hpoint
    · cases hpoint
    · rename_i p hp
      simp only [hp, decide_eq_true_eq] at hcheck
      rw [← hcheck]
      exact of_decide_eq_true (congrArg Prod.fst hpoint)
  refine h.apart _ hx ?_
  simp only [hsame]
  exact List.mem_map_of_mem (f := fun sb => N.prims.getBlockHash sb.block) (mem_of_getElem? hget)

/-- A branch has become the main chain, and its blocks go from the alternatives. -/
theorem Grown.moved {s₃ : Node} (h : Grown N K s) (hlined : Lined N K s) (hversions : s.versionsOk altChain)
    (hr : Replaced s altChain splitHeight disconnected s₂ base old new) (hforks : SameForks s s₂)
    (hclear : ∀ x ∈ s.alternativeChains.entries, x.1 ∉ altChain →
      (∃ y ∈ s.alternativeChains.entries, y.1 = x.2.bl.previousBlockHash ∧ y.1 ∉ altChain) ∨
        x.2.bl.previousBlockHash ∈ base.map fun sb => N.prims.getBlockHash sb.block)
    (hlined₃ : Lined N K s₃) (hback : HandedBack N s₂ disconnected s₃) :
    Grown N K { s₃.eraseAlternatives altChain with finalityForkState := .clear } := by
  obtain ⟨hdb, -, -, hmem⟩ := eraseAlternatives_frame altChain s₃
  have hmain : Node.mainIds N { s₃.eraseAlternatives altChain with finalityForkState := .clear } =
      base.map (fun sb => N.prims.getBlockHash sb.block) ++ altChain := by
    rw [Node.mainIds]
    simp only [hdb, hback.db, hr.after, map_append, hr.newIds hlined hversions]
  have hbefore : s.mainIds N = base.map (fun sb => N.prims.getBlockHash sb.block) ++
      old.map fun sb => N.prims.getBlockHash sb.block := by
    rw [Node.mainIds, hr.before, map_append]
  have hadded := hback.added
  have hkept := hback.kept
  rw [hforks.alts] at hadded hkept
  refine ⟨⟨?_, ?_⟩, ?_, ?_, ?_, ?_, ?_⟩
  · simp only [hdb]
    exact hlined₃.blocks.main
  · intro x hx
    exact hlined₃.blocks.alts x ((hmem x).mp hx).1
  · intro x hx
    exact hlined₃.alts x ((hmem x).mp hx).1
  · intro x hx
    obtain ⟨hx, hnot⟩ := (hmem x).mp hx
    rw [Node.knows, hmain, mem_append]
    rcases hadded x hx with hx | ⟨-, hknows, -⟩
    · rcases hclear x hx hnot with ⟨y, hy, hkey, hoff⟩ | hbase
      · exact .inl ⟨y, (hmem y).mpr ⟨hkept y hy, hoff⟩, hkey⟩
      · exact .inr (.inl hbase)
    · rcases hknows with ⟨y, hy, hkey⟩ | hknown
      · by_cases hon : y.1 ∈ altChain
        · exact .inr (.inr (hkey ▸ hon))
        · exact .inl ⟨y, (hmem y).mpr ⟨hy, hon⟩, hkey⟩
      · rw [mainIds_congr (N := N) hback.db, Node.mainIds, hr.after, map_append, hr.newIds hlined hversions,
          mem_append] at hknown
        exact .inr hknown
  · intro x hx
    obtain ⟨hx, hnot⟩ := (hmem x).mp hx
    rw [hmain, mem_append, not_or]
    refine ⟨?_, hnot⟩
    intro hbase
    rcases hadded x hx with hx | ⟨hd, -, -⟩
    · exact h.apart x hx (by rw [hbefore]; exact mem_append_left _ hbase)
    · -- a block that was handed back was on the main chain, above the fork
      have hnodup := mainIds_nodup hlined.calm.ok
      rw [hbefore] at hnodup
      rw [hr.disconnected] at hd
      obtain ⟨sb, hsb, hblock⟩ := List.mem_map.mp hd
      refine disjoint_of_nodup_append hnodup hbase (List.mem_map.mpr ⟨sb, hsb, ?_⟩)
      rw [(hlined₃.alts x hx).id, ← hblock]
  · intro x hx
    rcases hadded x ((hmem x).mp hx).1 with hx | ⟨-, -, hcheck⟩
    · exact h.checked x hx
    · exact hcheck
  · refine eraseAlternatives_index altChain (fun x hx => (hlined₃.alts x hx).index) (hback.index ?_)
    rw [hforks.alts, hforks.index]
    exact h.index

/-- A branch could not be connected, and goes from the block on that failed. -/
theorem Grown.cut {rest t : List Hash} (hK : CollisionFree N K) (h : Grown N K s) (hs : NodeOk N s)
    (hsorted : (t ++ rest).Pairwise fun a b => (s.alternativeAt a).height < (s.alternativeAt b).height)
    (hclear : ∀ x ∈ s.alternativeChains.entries, x.1 ∉ t ++ rest →
      (∃ y ∈ s.alternativeChains.entries, y.1 = x.2.bl.previousBlockHash ∧ y.1 ∉ t ++ rest) ∨
        x.2.bl.previousBlockHash ∈ s.mainIds N)
    {s₃ : Node} (hforks : SameForks s s₃) (hdb : s₃.db = s.db) : Grown N K (s₃.eraseAlternatives rest) := by
  obtain ⟨hdb', -, -, hmem⟩ := eraseAlternatives_frame rest s₃
  rw [hforks.alts] at hmem
  have hmain : (s₃.eraseAlternatives rest).mainIds N = s.mainIds N := mainIds_congr (hdb'.trans hdb)
  have hat : ∀ {x}, x ∈ s.alternativeChains.entries → s.alternativeAt x.1 = x.2 := by
    intro x hx
    rw [Node.alternativeAt, Node.findAlternative, MultiIndex.find_eq_some.mpr ⟨hx, rfl⟩]
    rfl
  refine ⟨⟨?_, ?_⟩, ?_, ?_, ?_, ?_, ?_⟩
  · rw [hdb', hdb]
    exact h.blocks.main
  · intro x hx
    exact h.blocks.alts x ((hmem x).mp hx).1
  · intro x hx
    exact h.alts x ((hmem x).mp hx).1
  · intro x hx
    obtain ⟨hx, hnot⟩ := (hmem x).mp hx
    rw [Node.knows, hmain]
    by_cases hon : x.1 ∈ t ++ rest
    · rcases h.parents x hx with ⟨y, hy, hkey⟩ | hknown
      · -- the parent comes before the block in the branch
        refine .inl ⟨y, (hmem y).mpr ⟨hy, fun hrest => ?_⟩, hkey⟩
        have ht := (mem_append.mp hon).resolve_right hnot
        have hlt := (pairwise_append.mp hsorted).2.2 _ ht _ hrest
        have hheight := h.height_of_entry hK hs hx hy hkey
        rw [hat hx, hat hy] at hlt
        omega
      · exact .inr hknown
    · rcases hclear x hx hon with ⟨y, hy, hkey, hoff⟩ | hknown
      · exact .inl ⟨y, (hmem y).mpr ⟨hy, fun hrest => hoff (mem_append_right _ hrest)⟩, hkey⟩
      · exact .inr hknown
  · intro x hx
    rw [hmain]
    exact h.apart x ((hmem x).mp hx).1
  · intro x hx
    exact h.checked x ((hmem x).mp hx).1
  · refine eraseAlternatives_index rest ?_ ?_
    · rw [hforks.alts]
      exact fun x hx => (h.alts x hx).index
    · rw [hforks.alts, hforks.index]
      exact h.index

end Switch

variable {b : Block}

theorem Grown.switched (hK : CollisionFree N K) (hfits : WorkFits N K) (h : Grown N K s) (hcalm : Calm N s)
    (hb : K b) (hsettled : settledHeight ≤ getBlockHeight b) (hnew : s.haveBlock (N.prims.getBlockHash b) = false)
    (hprev : b.previousBlockHash ≠ s.db.getTailId) {prevalidated : Option Hash} {br : Branch} {bei : BlockEntry}
    {isACheckpoint : Bool} {s₁ : Node} {fuel : Nat} {outcome : Outcome}
    (haccepted : Accepted N s b (N.prims.getBlockHash b) prevalidated br bei isACheckpoint)
    (hmore : isACheckpoint = true ∨ s.tipDifficulty < bei.cumulativeDifficulty)
    (hclear : ∀ x ∈ s.alternativeChains.entries, x.1 ∈ br.altChain ∨ OffBranch s br x)
    (hinsert : s.insertAlternative (N.prims.getBlockHash b) bei = some s₁)
    (hswitch : switchToAlternativeBlockchain N fuel s₁ (br.altChain ++ [N.prims.getBlockHash b]) isACheckpoint =
      some (outcome, s')) : Grown N K s' := by
  have hinv := Calm.callInv N K
  have hlined : Lined N K s := ⟨hcalm, h.blocks, h.alts⟩
  obtain ⟨hfresh, hapart⟩ := haveBlock_false hcalm.ok hnew
  obtain ⟨hlined₁, hentry, hdb₁, hmem₁⟩ := hlined.insert hK hb hsettled haccepted hinsert
  have h₁ := h.insert hK hcalm hb hsettled hapart haccepted hinsert
  have hself := (alternativeAt_inserted hinsert).1
  have hcases := switchWith_cases hswitch
  obtain ⟨-, hreturned⟩ := hinv.switched (fun hs hb hcall => hinv.handled fuel hs hb hcall)
    ⟨hlined₁.calm, hlined₁.blocks⟩ hcases
  -- what is not on the branch hangs on blocks that stay
  have hclear₁ : ∀ x ∈ s₁.alternativeChains.entries, x.1 ∉ br.altChain ++ [N.prims.getBlockHash b] →
      (∃ y ∈ s₁.alternativeChains.entries, y.1 = x.2.bl.previousBlockHash ∧
        y.1 ∉ br.altChain ++ [N.prims.getBlockHash b]) ∨
      ∃ k < s.forkHeight br, s₁.db.hashHeight x.2.bl.previousBlockHash = some k := by
    intro x hx hoff
    rw [mem_append, mem_singleton, not_or] at hoff
    have hx := ((hmem₁ x).mp hx).resolve_left fun he => hoff.2 (congrArg Prod.fst he)
    rcases (hclear x hx).resolve_left hoff.1 with ⟨y, hy, hkey, hy'⟩ | hfork
    · refine .inl ⟨y, (hmem₁ y).mpr (.inr hy), hkey, ?_⟩
      rw [mem_append, mem_singleton, not_or]
      exact ⟨hy', hfresh y hy⟩
    · exact .inr (hdb₁ ▸ hfork)
  have hbase : ∀ {disconnected splitHeight s₂ base old new s₀},
      ForkedFor N s₁ (br.altChain ++ [N.prims.getBlockHash b]) splitHeight disconnected s₀ →
      Replaced s₁ (br.altChain ++ [N.prims.getBlockHash b]) splitHeight disconnected s₂ base old new →
      ∀ x ∈ s₁.alternativeChains.entries, x.1 ∉ br.altChain ++ [N.prims.getBlockHash b] →
        (∃ y ∈ s₁.alternativeChains.entries, y.1 = x.2.bl.previousBlockHash ∧
          y.1 ∉ br.altChain ++ [N.prims.getBlockHash b]) ∨
        x.2.bl.previousBlockHash ∈ base.map fun sb => N.prims.getBlockHash sb.block := by
    intro disconnected splitHeight s₂ base old new s₀ hfork hr x hx hoff
    refine (hclear₁ x hx hoff).imp_right ?_
    intro ⟨k, hk, hheight⟩
    have hsplit := hfork.split
    rw [haccepted.splitHeight hinsert hfresh, Option.some.injEq, ← hr.split] at hsplit
    rw [← getElem?_mainIds hlined₁.calm.ok, Node.mainIds, hr.before, map_append,
      getElem?_append_left (by rw [length_map]; omega)] at hheight
    exact mem_of_getElem? hheight
  cases hcases with
  | refused hno =>
    obtain ⟨hversions, splitHeight, hsplit, hlower⟩ := hlined.branch_ready hnew hprev haccepted hinsert
    exact absurd hversions (hno splitHeight hsplit hlower)
  | connectThrew => exact absurd rfl hreturned
  | rollbackThrew => exact absurd rfl hreturned
  | handBackThrew => exact absurd rfl hreturned
  | @rolledBack _ _ rest _ _ s₃ _ hfork hup hroll =>
    obtain ⟨⟨t, ht⟩, -⟩ := connect_rest hup
    obtain ⟨walk, hrow, hlinked, halts⟩ := haccepted.row
    have hrow₁ : ∀ y ∈ (N.prims.getBlockHash b, bei) :: walk, y ∈ s₁.alternativeChains.entries := by
      intro y hy
      rcases mem_cons.mp hy with rfl | hy
      · exact (hmem₁ _).mpr (.inl rfl)
      · exact (hmem₁ _).mpr (.inr (hrow y hy))
    have hsorted := h₁.sorted hK hlined₁.calm.ok hrow₁ hlinked
    rw [map_cons, reverse_cons, ← halts, ← ht] at hsorted
    have hdb := ((switchWith_cases hswitch).restored hlined₁.calm.ok hlined₁.calm.above).1
    rw [(eraseAlternatives_frame rest s₃).1] at hdb
    refine h₁.cut hK hlined₁.calm.ok hsorted ?_
      (hfork.rolledBack_forks hup hroll hlined₁.calm.ok hlined₁.calm.above) hdb
    intro x hx hoff
    rw [ht] at hoff ⊢
    exact (hclear₁ x hx hoff).imp_right fun ⟨k, _, hk⟩ => (mem_mainIds hlined₁.calm.ok).mpr ⟨k, hk⟩
  | discarded _ hfork hup =>
    obtain ⟨hlined₂, hforks₂, base, old, new, hr⟩ := hlined₁.connected hfork hup
    exact h₁.moved hlined₁ hfork.versions hr hforks₂ (hbase hfork hr) hlined₂ (.same rfl rfl rfl)
  | @handedBack _ _ _ s₂ s₃ _ hdiscard hfork hup hback =>
    obtain ⟨hlined₂, hforks₂, base, old, new, hr⟩ := hlined₁.connected hfork hup
    have htip : s₂.tipDifficulty = bei.cumulativeDifficulty := by
      rw [hr.tip_work hK hlined₂ (by rw [hself]; exact hentry), hself]
    have hgain := hmore.resolve_left (by simp [hdiscard])
    rw [← htip] at hgain
    have hbei : bei.bl = b := by rw [haccepted.entry.2.1]
    have hpoints := hr.no_checkpoint h₁ hlined₁ hlined₂.calm.ok hfork.versions (by
      rw [hself, hdb₁, hbei]
      exact haccepted.allowed)
    obtain ⟨hlined₃, hhanded⟩ := Lined.handBack hK hlined₂ (by
      intro d hd
      obtain ⟨hdK, hheight, l, hl, hle⟩ := hr.old_work hK hfits hlined₁ (hlined₁.fork_settled hfork) d hd
      rw [tipDifficulty_congr hdb₁] at hle
      exact ⟨hdK, hheight, hpoints d hd, l, hl, UInt64.le_trans hle (UInt64.le_of_lt hgain)⟩) hback
    exact h₁.moved hlined₁ hfork.versions hr hforks₂ (hbase hfork hr) hlined₃ hhanded

/-! ## Calls -/

/-- Blocks on the same alternatives and on a chain that still has their parents. -/
theorem Grown.rechained (h : Grown N K s) (hin : BlocksIn K s') (hforks : SameForks s s')
    (hparents : ∀ x ∈ s.alternativeChains.entries, x.2.bl.previousBlockHash ∈ s.mainIds N →
      (∃ y ∈ s.alternativeChains.entries, y.1 = x.2.bl.previousBlockHash) ∨ x.2.bl.previousBlockHash ∈ s'.mainIds N)
    (hapart : ∀ x ∈ s.alternativeChains.entries, x.1 ∉ s.mainIds N → x.1 ∉ s'.mainIds N) : Grown N K s' := by
  refine ⟨hin, ?_, ?_, ?_, ?_, ?_⟩
  · rw [hforks.alts]
    exact h.alts
  · intro x hx
    rw [Node.knows, hforks.alts]
    rw [hforks.alts] at hx
    rcases h.parents x hx with hentry | hmain
    · exact .inl hentry
    · exact hparents x hx hmain
  · intro x hx
    rw [hforks.alts] at hx
    exact hapart x hx (h.apart x hx)
  · rw [hforks.alts]
    exact h.checked
  · rw [hforks.alts, hforks.index]
    exact h.index

theorem Grown.pushed (h : Grown N K s) (hcalm : Calm N s) (hb : K b)
    (hnew : ∀ x ∈ s.alternativeChains.entries, x.1 ≠ N.prims.getBlockHash b) {prevalidated : Option Hash}
    (hpre : ∀ p ∈ prevalidated, N.prims.prevalidateBlockProofOfWork b = some p) :
    Grown N K (s.pushBlock N b (N.prims.getBlockHash b) prevalidated).2 := by
  have hpos := hcalm.ok.built.pos
  obtain ⟨⟨-, hin⟩, -⟩ := (Calm.callInv N K).push ⟨hcalm, h.blocks⟩ hb hpre
  obtain ⟨hlater, hspec⟩ := pushBlock_spec hcalm.ok.pool (by omega) hpre
  generalize s.pushBlock N b (N.prims.getBlockHash b) prevalidated = r at hin hlater hspec
  obtain ⟨outcome, s₁⟩ := r
  have hsame : s₁.db = s.db → Grown N K s₁ := by
    intro hdb
    have hmain := mainIds_congr (N := N) hdb
    exact h.rechained hin hlater.toSameForks (fun x _ hx => .inr (hmain ▸ hx)) fun x _ hx => hmain ▸ hx
  cases hspec with
  | @pushed _ sb hblock hm =>
    have hmain : s₁.mainIds N = s.mainIds N ++ [N.prims.getBlockHash b] := by
      rw [Node.mainIds, hm.storedBlocks, map_append, map_singleton, hblock]
      rfl
    refine h.rechained hin hlater.toSameForks ?_ ?_
    · intro x _ hx
      rw [hmain]
      exact .inr (mem_append_left _ hx)
    · intro x hx hnot
      rw [hmain, mem_append, mem_singleton, not_or]
      exact ⟨hnot, hnew x hx⟩
  | refused hdb => exact hsame hdb
  | threw hdb => exact hsame hdb

/-- If the block's branch would become the main chain, every stored block is on the branch
or off it. -/
def SwitchesClear (N : NodeEnv) (s : Node) (b : Block) : Prop :=
  ∀ prevalidated br bei isACheckpoint, Accepted N s b (N.prims.getBlockHash b) prevalidated br bei isACheckpoint →
    (isACheckpoint = true ∨ s.tipDifficulty < bei.cumulativeDifficulty) →
    ∀ x ∈ s.alternativeChains.entries, x.1 ∈ br.altChain ∨ OffBranch s br x

theorem Grown.offered (hK : CollisionFree N K) (hfits : WorkFits N K) (h : Grown N K s) (hcalm : Calm N s)
    (hb : K b) (hsettled : b.previousBlockHash ≠ s.db.getTailId → settledHeight ≤ getBlockHeight b)
    (hclear : SwitchesClear N s b) {outcome : Outcome} (hcall : Offered N s b outcome s') : Grown N K s' := by
  cases hcall with
  | refused => exact h
  | pushed hnew _ hpre => exact h.pushed hcalm hb (haveBlock_false hcalm.ok hnew).1 hpre
  | handled fuel hnew hprev _ hcall =>
    cases fuel with
    | zero => cases hcall
    | succ fuel =>
      rw [handleAlternativeBlock] at hcall
      cases handleWith_cases hcall with
      | unchanged => exact h
      | recorded =>
        exact ⟨⟨h.blocks.main, h.blocks.alts⟩, h.alts, h.parents, h.apart, h.checked, h.index⟩
      | stored haccepted _ hinsert =>
        exact h.insert hK hcalm hb (hsettled hprev) (haveBlock_false hcalm.ok hnew).2 haccepted hinsert
      | switched haccepted hmore hinsert hswitch =>
        exact h.switched hK hfits hcalm hb (hsettled hprev) hnew hprev haccepted hmore
          (hclear _ _ _ _ haccepted hmore) hinsert hswitch

/-- The main-chain blocks up to `height` include the main-chain parents of all stored blocks. -/
def KeepsParents (s : Node) (height : Nat) : Prop :=
  ∀ x ∈ s.alternativeChains.entries,
    (∃ y ∈ s.alternativeChains.entries, y.1 = x.2.bl.previousBlockHash) ∨ x.2.height ≤ height + 1

theorem Grown.rollback (hK : CollisionFree N K) (h : Grown N K s) (hs : NodeOk N s) {height : Nat}
    (hkeeps : KeepsParents s height) : Grown N K (s.rollbackBlockchainTo N height) := by
  have hpos := hs.built.pos
  have hlen := hs.built.length
  have hb := hs.built.removeBlocks (s.db.getChainHeight - (height + 1)) (by omega)
  have hmain : (s.rollbackBlockchainTo N height).mainIds N =
      (s.mainIds N).take (s.db.storedBlocks.length - (s.db.getChainHeight - (height + 1))) := by
    rw [Node.mainIds, Node.rollbackBlockchainTo]
    simp only
    rw [hb.storedBlocks, map_take]
    rfl
  refine h.rechained (h.blocks.rollback hs height) ⟨rfl, rfl, rfl⟩ ?_ ?_
  · intro x hx hx'
    rcases hkeeps x hx with hentry | hlow
    · exact .inl hentry
    · obtain ⟨k, hk⟩ := (mem_mainIds hs).mp hx'
      have hheight := h.height_of_parent hK hs hx (.main hk)
      have hget := (getElem?_mainIds hs).mpr hk
      have hlt := (List.getElem?_eq_some_iff.mp hget).1
      rw [Node.mainIds, length_map] at hlt
      rw [hmain]
      refine .inr (mem_of_getElem? (i := k) ?_)
      rw [getElem?_take, if_pos (by omega), hget]
  · intro x _ hnot hin
    rw [hmain] at hin
    exact hnot (mem_of_mem_take hin)

/-! ## Runs -/

/-- As for the fork choice, with what `SwitchesClear` and `KeepsParents` ask. -/
def forestGuards (N : NodeEnv) (K : Block → Prop) : Guards where
  genesis := K
  offer s b := (forkChoiceGuards N K).offer s b ∧ SwitchesClear N s b
  rollback := KeepsParents
  resync s := s.finalityForkState.active = true → KeepsParents s s.finalityForkState.divergenceHeight

theorem grown_reachable (hK : CollisionFree N K) (hfits : WorkFits N K)
    (h : (guardedLts N (forestGuards N K)).Reachable s) : Grown N K s := by
  induction h with
  | @init s hinit =>
    obtain ⟨hin, hforks⟩ := guarded_init hinit
    have hempty : ∀ x, x ∉ s.alternativeChains.entries := by
      intro x hx
      rw [hforks.alts] at hx
      cases hx
    refine ⟨hin, fun x hx => absurd hx (hempty x), fun x hx => absurd hx (hempty x), fun x hx => absurd hx (hempty x),
      fun x hx => absurd hx (hempty x), ?_⟩
    rw [hforks.alts, hforks.index]
    exact .refl _
  | @step s s' hreach hstep ih =>
    have hnode := guarded_node hreach
    have hs := (node_inv hnode).ok
    cases hstep with
    | offer hguard hoffer =>
      obtain ⟨⟨hb, hdistinct, hsettled⟩, hclear⟩ := hguard
      exact ih.offered hK hfits (.of_reachable hnode hdistinct) hb hsettled hclear hoffer.cases
    | pool hcall =>
      have hmain := mainIds_congr (N := N) hcall.step.db
      exact ih.rechained (ih.blocks.pool hcall) hcall.forks (fun x _ hx => .inr (hmain ▸ hx)) fun x _ hx => hmain ▸ hx
    | rollback hguard => exact ih.rollback hK hs hguard
    | resync hguard =>
      rcases resyncToMajority_cases (N := N) (s := s) with hsame | ⟨hactive, hrolled⟩
      · rw [hsame]
        exact ih
      · rw [hrolled]
        have hgrown := ih.rollback hK hs (hguard hactive)
        exact ⟨⟨hgrown.blocks.main, hgrown.blocks.alts⟩, hgrown.alts, hgrown.parents, hgrown.apart, hgrown.checked,
          hgrown.index⟩

/-- Two blocks on genesis, and a second block on the first of them. -/
def siblingChain : List Block :=
  mineOn 2 flatGenesis 0 ++ [flatNext (flatNext flatGenesis 1 1090 []) 2 1181 []]

end Discrete.L4
