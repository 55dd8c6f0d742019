import Discrete.L4Node.Ancestry
import Discrete.L4Node.Calls

/-!
# Lineages

What the retarget would ask of every block if its own branch had always been the main
chain: `Lineage` gives each block the timestamps and the cumulative difficulties of its
ancestors by that rule alone, without any node's state.

Where ids are collision-free a block has one lineage (`Lineage.unique`), and from
`settledHeight` on, where a sample is as large as it gets, a node counts the work of a
block as its lineage says, whichever chain is the main one:

* `main_lineage`: on the main chain, at every height.
* `Accepted.lineage`: for a block that passes as an alternative.
-/
namespace Discrete.L4
open L1 L2 L3

variable {N : NodeEnv} {K : Block → Prop}

/-- A block of `K` with the work of its ancestors in `K`, itself first. -/
inductive Lineage (N : NodeEnv) (K : Block → Prop) : Block → List (UInt64 × UInt64) → Prop where
  | genesis {b : Block} : K b → b.previousBlockHash = nullHash → Lineage N K b [(b.timestamp, 1)]
  | child {b p : Block} {l : List (UInt64 × UInt64)} : K b → Lineage N K p l →
      b.previousBlockHash = N.prims.getBlockHash p →
      Lineage N K b ((b.timestamp, tipWork l + requiredDifficulty N.currency.testnet l) :: l)

/-- Ids of blocks in `K` are as good as the blocks. -/
structure CollisionFree (N : NodeEnv) (K : Block → Prop) : Prop where
  injective : ∀ {b b'}, K b → K b' → N.prims.getBlockHash b = N.prims.getBlockHash b' → b = b'
  nonnull : ∀ {b}, K b → N.prims.getBlockHash b ≠ nullHash

/-- No branch of `K` has more work than its counter holds. -/
def WorkFits (N : NodeEnv) (K : Block → Prop) : Prop :=
  ∀ b l, Lineage N K b l → (tipWork l).toNat + (requiredDifficulty N.currency.testnet l).toNat < 2 ^ 64

variable {b : Block} {l : List (UInt64 × UInt64)}

theorem Lineage.known (h : Lineage N K b l) : K b := by
  cases h with
  | genesis hb => exact hb
  | child hb => exact hb

variable {l' : List (UInt64 × UInt64)}

theorem Lineage.unique (hK : CollisionFree N K) (h : Lineage N K b l) (h' : Lineage N K b l') : l = l' := by
  induction h generalizing l' with
  | genesis _ hnull =>
    cases h' with
    | genesis => rfl
    | child _ hp hprev => exact absurd (hprev.symm.trans hnull) (hK.nonnull hp.known)
  | child _ hp hprev ih =>
    cases h' with
    | genesis _ hnull => exact absurd (hprev.symm.trans hnull) (hK.nonnull hp.known)
    | child _ hp' hprev' =>
      cases hK.injective hp.known hp'.known (hprev.symm.trans hprev')
      rw [ih hp']

/-- Work grows along a lineage. -/
theorem Lineage.grows (hfits : WorkFits N K) (h : Lineage N K b l) (hsuffix : l' <:+ l) (hne : l' ≠ []) :
    tipWork l' ≤ tipWork l := by
  induction h with
  | genesis =>
    rcases List.suffix_cons_iff.mp hsuffix with rfl | hnil
    · exact UInt64.le_refl _
    · exact absurd (List.suffix_nil.mp hnil) hne
  | @child b p l _ hp _ ih =>
    rcases List.suffix_cons_iff.mp hsuffix with rfl | hsuffix
    · exact UInt64.le_refl _
    · refine UInt64.le_trans (ih hsuffix) ?_
      have hadd := hfits p l hp
      rw [UInt64.le_iff_toNat_le]
      change (tipWork l).toNat ≤ (tipWork l + requiredDifficulty N.currency.testnet l).toNat
      rw [UInt64.toNat_add, Nat.mod_eq_of_lt hadd]
      omega

/-! ## The main chain -/

variable {s s' : Node}

/-- The main chain is the lineage of its blocks. -/
theorem main_lineage (hK : CollisionFree N K) (hs : NodeOk N s) (hin : BlocksIn K s) : ∀ {k : Nat} {sb : StoredBlock},
    s.db.storedBlocks[k]? = some sb → Lineage N K sb.block (s.db.workBefore (k + 1))
  | k, sb, hsb => by
    have hlinked := hs.built.linked hsb
    have hb := hin.main sb (List.mem_of_getElem? hsb)
    have hmeta : s.db.metas[k]? = some sb.entry := by rw [hs.built.metas, List.getElem?_map, hsb]; rfl
    have hcum := hlinked.cumulativeDifficulty
    rw [workBefore_succ hmeta, DbBlockMeta.work, hlinked.timestamp]
    cases k with
    | zero =>
      rw [hcum]
      exact .genesis hb hlinked.previous
    | succ j =>
      obtain ⟨sb', hsb'⟩ : ∃ sb', s.db.storedBlocks[j]? = some sb' := by
        have := (List.getElem?_eq_some_iff.mp hsb).1
        exact ⟨_, List.getElem?_eq_getElem (by omega)⟩
      have hprev : s.db.idBefore (j + 1) = N.prims.getBlockHash sb'.block := by
        rw [Db.idBefore, hs.built.getBlockIdByHeight hsb', (hs.built.linked hsb').hash]
      have hparent := main_lineage hK hs hin hsb'
      rw [hcum, hprev, if_neg (hK.nonnull hparent.known)]
      exact .child hb hparent (hlinked.previous.trans hprev)

/-- The work of the tip. -/
def Node.tipDifficulty (s : Node) : UInt64 := (s.db.getBlockMeta (s.db.getChainHeight - 1)).cumulativeDifficulty

theorem tipDifficulty_eq (hs : NodeOk N s) : s.tipDifficulty = tipWork (s.db.workBefore s.db.getChainHeight) := by
  have hpos := hs.built.pos
  obtain ⟨n, hn⟩ : ∃ n, s.db.getChainHeight = n + 1 := ⟨s.db.getChainHeight - 1, by omega⟩
  rw [Node.tipDifficulty, hn, Nat.add_sub_cancel, tipWork_workBefore hn]

/-! ## The stored alternative blocks -/

/-- The height from which a sample is as large as it gets. -/
def settledHeight : Nat := difficultyWindow + 2

/-- An alternative block under its id, with the height and the work of its lineage. -/
structure LinedEntry (N : NodeEnv) (K : Block → Prop) (x : Hash × BlockEntry) : Prop where
  id : x.1 = N.prims.getBlockHash x.2.bl
  version : checkBlockVersion x.2.bl = true
  index : x.2.height = getBlockHeight x.2.bl
  settled : settledHeight ≤ x.2.height
  lineage : ∃ l, Lineage N K x.2.bl l ∧ l.length = x.2.height + 1 ∧ x.2.cumulativeDifficulty = tipWork l

/-- Every known block has its lineage. -/
structure Traced (N : NodeEnv) (K : Block → Prop) (s : Node) : Prop where
  ok : NodeOk N s
  blocks : BlocksIn K s
  alts : ∀ x ∈ s.alternativeChains.entries, LinedEntry N K x

/-- The same while no call throws. -/
structure Lined (N : NodeEnv) (K : Block → Prop) (s : Node) : Prop where
  calm : Calm N s
  blocks : BlocksIn K s
  alts : ∀ x ∈ s.alternativeChains.entries, LinedEntry N K x

theorem Lined.traced (h : Lined N K s) : Traced N K s := ⟨h.calm.ok, h.blocks, h.alts⟩

theorem Traced.found (h : Traced N K s) {k : Hash} {e : BlockEntry} (he : s.findAlternative k = some e) :
    N.prims.getBlockHash e.bl = k ∧ ∃ l, Lineage N K e.bl l ∧ l.length = e.height + 1 ∧
      e.cumulativeDifficulty = tipWork l := by
  obtain ⟨x, hx, rfl⟩ := Option.map_eq_some_iff.mp he
  obtain ⟨hmem, hkey⟩ := MultiIndex.find_eq_some.mp hx
  have hentry := h.alts x hmem
  exact ⟨by rw [← hentry.id]; exact hkey, hentry.lineage⟩

theorem Traced.stored (h : Traced N K s) (hK : CollisionFree N K) {k : Hash} {height : Nat}
    (hk : s.db.hashHeight k = some height) :
    ∃ sb, s.db.storedBlocks[height]? = some sb ∧ N.prims.getBlockHash sb.block = k ∧
      Lineage N K sb.block (s.db.workBefore (height + 1)) := by
  obtain ⟨sb, hsb, hhash⟩ := h.ok.built.hashHeight.mp hk
  refine ⟨sb, hsb, ?_, main_lineage hK h.ok h.blocks hsb⟩
  rw [← hhash, (h.ok.built.linked hsb).hash]

/-- Whatever a node has recorded of a block, its lineage says the same. -/
theorem Lineage.records (hK : CollisionFree N K) (h : Traced N K s) {work : UInt64 × UInt64}
    (hb : Lineage N K b (work :: l)) :
    Records s.db s.findAlternative (N.prims.getBlockHash b) b.previousBlockHash work := by
  have htimestamp : work.1 = b.timestamp := by
    cases hb with
    | genesis => rfl
    | child => rfl
  refine ⟨?_, ?_⟩
  · intro e he
    obtain ⟨hhash, l', hl', -, hcum⟩ := h.found he
    cases hK.injective hl'.known hb.known hhash
    rw [hl'.unique hK hb] at hcum
    exact ⟨rfl, Prod.ext htimestamp.symm hcum⟩
  · intro k hk
    obtain ⟨sb, hsb, hhash, hl'⟩ := h.stored hK hk
    have hlinked := h.ok.built.linked hsb
    have hmeta : s.db.metas[k]? = some sb.entry := by
      rw [h.ok.built.metas, List.getElem?_map, hsb]
      rfl
    rw [h.ok.built.getBlockMeta hsb]
    cases hK.injective hl'.known hb.known hhash
    have hwork := hl'.unique hK hb
    rw [workBefore_succ hmeta, List.cons.injEq] at hwork
    exact ⟨by rw [hlinked.prevHash, hlinked.previous], hwork.1⟩

/-- The difficulty on top of a block is the retarget over its lineage, if the walk to its
ancestors comes to an end. -/
theorem Traced.difficulty (h : Traced N K s) (hK : CollisionFree N K)
    (hb : Lineage N K b l) (hwalk : s.db.hashHeight (N.prims.getBlockHash b) = none →
      (difficultyWalk s.db s.findAlternative (sampleSize s.db.getChainHeight) (N.prims.getBlockHash b)).isSome) :
    getDifficultyForNextBlock N.toEnv s.db s.findAlternative (N.prims.getBlockHash b) =
      sampleDifficulty N.currency.testnet (sampleSize s.db.getChainHeight) l := by
  have hnull := hK.nonnull hb.known
  cases hk : s.db.hashHeight (N.prims.getBlockHash b) with
  | some k =>
    obtain ⟨sb, hsb, hhash, hl'⟩ := h.stored hK hk
    cases hK.injective hl'.known hb.known hhash
    have hlt : k < s.db.getChainHeight := by
      rw [h.ok.built.length]
      exact (List.getElem?_eq_some_iff.mp hsb).1
    rw [getDifficultyForNextBlock_of_main hnull hk hlt, hl'.unique hK hb]
  | none =>
    obtain ⟨back, hback⟩ := Option.isSome_iff_exists.mp (hwalk hk)
    unfold getDifficultyForNextBlock
    rw [if_neg hnull]
    simp only [hk, sampleSize_eq, hback]
    -- the walk follows the lineage
    have htake := difficultyWalk_take
      (R := fun h l => h = nullHash ∧ l = [] ∨ ∃ p, N.prims.getBlockHash p = h ∧ Lineage N K p l) ?_ ?_ _
      (.inr ⟨b, rfl, hb⟩) hback
    · rw [htake]
      rfl
    · intro l hl
      rcases hl with ⟨-, rfl⟩ | ⟨p, hp, hl⟩
      · rfl
      · exact absurd hp (hK.nonnull hl.known)
    · intro k l hne hl
      rcases hl with ⟨rfl, -⟩ | ⟨p, rfl, hl⟩
      · exact absurd rfl hne
      · cases hl with
        | genesis hp hprev => exact ⟨_, _, _, rfl, .inl ⟨hprev, rfl⟩, Lineage.records hK h (.genesis hp hprev)⟩
        | child hp hl hprev =>
          exact ⟨_, _, _, rfl, .inr ⟨_, hprev.symm, hl⟩, Lineage.records hK h (.child hp hl hprev)⟩

/-- Once both are settled, the main chain's length does not matter. -/
theorem sampleDifficulty_settled (testnet : Bool) {chainHeight : Nat}
    (hheight : settledHeight ≤ chainHeight) (hlen : settledHeight ≤ l.length) :
    sampleDifficulty testnet (sampleSize chainHeight) l = requiredDifficulty testnet l := by
  refine sampleDifficulty_take testnet ?_
  unfold settledHeight difficultyWindow at hheight hlen
  unfold sampleSize difficultyWindow
  omega

/-! ## Branches -/

variable {alts : AlternativeChains}

theorem altWalk_head {n : Nat} {h : Hash} {walk : List (Hash × BlockEntry)} (hwalk : altWalk alts n h = some walk) :
    walk.head? = alts.find h := by
  cases n with
  | zero =>
    rw [altWalk] at hwalk
    split at hwalk
    · cases hwalk
    · rename_i hnone
      cases hwalk
      rw [Bool.not_eq_true, Option.isSome_eq_false_iff, Option.isNone_iff_eq_none] at hnone
      rw [hnone]
      rfl
  | succ n =>
    rw [altWalk] at hwalk
    split at hwalk
    · rename_i hnone
      cases hwalk
      rw [hnone]
      rfl
    · rename_i x hx
      obtain ⟨rest, -, rfl⟩ := Option.map_eq_some_iff.mp hwalk
      rw [hx]
      rfl

theorem altWalk_mem : ∀ {n : Nat} {h : Hash} {walk : List (Hash × BlockEntry)},
    altWalk alts n h = some walk → ∀ x ∈ walk, x ∈ alts.entries
  | 0, h, walk, hwalk => by
    rw [altWalk] at hwalk
    split at hwalk
    · cases hwalk
    · cases hwalk
      simp
  | n + 1, h, walk, hwalk => by
    rw [altWalk] at hwalk
    split at hwalk
    · cases hwalk
      simp
    · rename_i y hy
      obtain ⟨rest, hrest, rfl⟩ := Option.map_eq_some_iff.mp hwalk
      intro x hx
      rcases List.mem_cons.mp hx with rfl | hx
      · exact (MultiIndex.find_eq_some.mp hy).1
      · exact altWalk_mem hrest x hx

/-- Each block of a walk is the parent of the one before. -/
theorem altWalk_linked : ∀ {n : Nat} {h : Hash} {walk : List (Hash × BlockEntry)},
    altWalk alts n h = some walk → walk.IsChain fun x y => y.1 = x.2.bl.previousBlockHash
  | 0, h, walk, hwalk => by
    rw [altWalk] at hwalk
    split at hwalk
    · cases hwalk
    · cases hwalk
      exact .nil
  | n + 1, h, walk, hwalk => by
    rw [altWalk] at hwalk
    split at hwalk
    · cases hwalk
      exact .nil
    · rename_i x hx
      obtain ⟨rest, hrest, rfl⟩ := Option.map_eq_some_iff.mp hwalk
      have hhead := altWalk_head hrest
      cases rest with
      | nil => exact .singleton x
      | cons y rest => exact .cons_cons (MultiIndex.find_eq_some.mp hhead.symm).2 (altWalk_linked hrest)

/-- What an alternative block may extend: a main-chain block, or the last of a row of
stored blocks the first of which sits on the main chain. -/
inductive BranchOf (N : NodeEnv) (s : Node) (prev : Hash) (br : Branch) : Prop where
  | main {k : Nat} : s.findAlternative prev = none → s.db.hashHeight prev = some k → br.altChain = [] →
      br.height = k + 1 → br.cumulativeDifficulty = (s.db.getBlockMeta k).cumulativeDifficulty → BranchOf N s prev br
  | stored {walk : List (Hash × BlockEntry)} {x front : Hash × BlockEntry} :
      (∀ y ∈ walk, y ∈ s.alternativeChains.entries) → walk.IsChain (fun y z => z.1 = y.2.bl.previousBlockHash) →
      walk.head? = some x → walk.getLast? = some front → s.alternativeChains.find prev = some x → br.altChain = (walk.map Prod.fst).reverse →
      br.height = x.2.height + 1 → br.cumulativeDifficulty = x.2.cumulativeDifficulty →
      front.2.height < s.db.getChainHeight →
      (s.db.blockData (front.2.height - 1)).map N.prims.getBlockHash = some front.2.bl.previousBlockHash →
      BranchOf N s prev br

variable {br : Branch}

theorem Accepted.branchOf {id : Hash} {prevalidated : Option Hash} {bei : BlockEntry} {isACheckpoint : Bool}
    (h : Accepted N s b id prevalidated br bei isACheckpoint) : BranchOf N s b.previousBlockHash br := by
  obtain ⟨walk, hwalk, hbranch⟩ := h.branch
  have hhead := altWalk_head hwalk
  have hmem := altWalk_mem hwalk
  unfold Node.branch at hbranch
  split at hbranch
  · rename_i x front hx hfront
    split at hbranch
    · cases hbranch
    rename_i hlower
    split at hbranch
    · cases hbranch
    rename_i hlink
    cases hbranch
    exact .stored hmem (altWalk_linked hwalk) hx hfront (hhead.symm.trans hx) rfl rfl rfl (not_not.mp hlower) (not_not.mp hlink)
  · rename_i hnot
    have hnil : walk = [] := by
      cases walk with
      | nil => rfl
      | cons x rest => exact absurd (List.getLast?_eq_some_getLast (List.cons_ne_nil x rest)) (hnot x _ rfl)
    subst hnil
    split at hbranch
    · cases hbranch
    · rename_i k hk
      cases hbranch
      refine .main ?_ hk rfl rfl rfl
      rw [Node.findAlternative, ← hhead]
      rfl

/-- The parent of a branch has its lineage, and the chain is settled if the branch is. -/
theorem BranchOf.parent (hK : CollisionFree N K) (hs : Lined N K s) {prev : Hash} (h : BranchOf N s prev br) :
    (∃ p l, N.prims.getBlockHash p = prev ∧ Lineage N K p l ∧ br.height = l.length ∧
      br.cumulativeDifficulty = tipWork l) ∧ (settledHeight ≤ br.height → settledHeight ≤ s.db.getChainHeight) := by
  cases h with
  | @main k _ hk _ hheight hcum =>
    obtain ⟨sb, hsb, hhash, hl⟩ := hs.traced.stored hK hk
    have hlt : k < s.db.getChainHeight := by
      rw [hs.calm.ok.built.length]
      exact (List.getElem?_eq_some_iff.mp hsb).1
    have hmeta : s.db.metas[k]? = some sb.entry := by
      rw [hs.calm.ok.built.metas, List.getElem?_map, hsb]
      rfl
    refine ⟨⟨sb.block, _, hhash, hl, ?_, ?_⟩, by omega⟩
    · rw [hheight, length_workBefore]
      omega
    · rw [hcum, workBefore_succ hmeta, hs.calm.ok.built.getBlockMeta hsb]
      rfl
  | @stored walk x front hmem _ _ hfront hfind _ hheight hcum hlower _ =>
    obtain ⟨hx, hkey⟩ := MultiIndex.find_eq_some.mp hfind
    have hentry := hs.alts x hx
    obtain ⟨l, hl, hlen, hwork⟩ := hentry.lineage
    refine ⟨⟨x.2.bl, l, ?_, hl, ?_, ?_⟩, ?_⟩
    · rw [← hentry.id]
      exact hkey
    · rw [hheight, hlen]
    · rw [hcum, hwork]
    · intro _
      have := (hs.alts front (hmem front (List.mem_of_getLast? hfront))).settled
      omega

/-- A settled block that passes as an alternative is entered with the height and the work
of its lineage. -/
theorem Accepted.lineage (hK : CollisionFree N K) (hs : Lined N K s) (hb : K b)
    (hsettled : settledHeight ≤ getBlockHeight b) {prevalidated : Option Hash} {bei : BlockEntry}
    {isACheckpoint : Bool} (h : Accepted N s b (N.prims.getBlockHash b) prevalidated br bei isACheckpoint) :
    LinedEntry N K (N.prims.getBlockHash b, bei) := by
  obtain ⟨hdiff, rfl, hheight, -⟩ := h.entry
  obtain ⟨⟨p, l, hprev, hl, hlen, hwork⟩, hchain⟩ := h.branchOf.parent hK hs
  have hrequired : getDifficultyForNextBlock N.toEnv s.db s.findAlternative b.previousBlockHash =
      requiredDifficulty N.currency.testnet l := by
    rw [← hprev] at hdiff ⊢
    rw [hs.traced.difficulty hK hl (difficultyWalk_of_ne_zero hdiff (hK.nonnull hl.known))]
    exact sampleDifficulty_settled _ (hchain (by omega)) (by omega)
  refine ⟨rfl, h.version, hheight.symm, by simp only; omega, _, .child hb hl hprev.symm, ?_, ?_⟩
  · simp [hlen]
  · simp only [hwork, hrequired]
    rfl

end Discrete.L4
