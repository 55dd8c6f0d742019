import Discrete.L4Node.Calls
import Discrete.L4Node.Finality

/-!
# Recovery from a refused fork

A block that is refused for finality but would have been valid is recorded, with the
height of its parent as the height to roll back to (`recordFinalityFork`), and the
operator may then roll back to it (`resyncToMajority`). The parent may be a stored
alternative block: then its height is above the fork.

* `recovery_point`: as long as every block that is refused for finality has a parent that
  is not a stored alternative, no call throws and the operator does not roll back below the
  recorded height, all main-chain blocks up to it are ancestors of the recorded tip.
* `recovery_above_fork`: a branch of two blocks, the second refused for finality.
-/
namespace Discrete.L4
open L1 L2 L3

/-! ## Ancestors -/

/-- Some block of `K` with id `h` names `h'` as its parent. -/
def ParentIn (N : NodeEnv) (K : Block → Prop) (h h' : Hash) : Prop :=
  ∃ b, K b ∧ N.prims.getBlockHash b = h ∧ b.previousBlockHash = h'

/-- `h'` is `h` or an ancestor of it by blocks of `K`. -/
abbrev Descends (N : NodeEnv) (K : Block → Prop) : Hash → Hash → Prop := Relation.ReflTransGen (ParentIn N K)

/-- The main-chain blocks up to `height` are ancestors of `tip`. -/
def SharedUpTo (N : NodeEnv) (K : Block → Prop) (db : Db) (height : Nat) (tip : Hash) : Prop :=
  ∀ k ≤ height, ∃ sb, db.storedBlock k = some sb ∧ Descends N K tip sb.entry.hash

/-- The height recorded for recovery is a fork point. -/
def RecoveryPoint (N : NodeEnv) (K : Block → Prop) (s : Node) : Prop :=
  s.finalityForkState.active = true →
    SharedUpTo N K s.db s.finalityForkState.divergenceHeight s.finalityForkState.competingTipHash

variable {N : NodeEnv} {K : Block → Prop} {s s' : Node}

theorem SharedUpTo.mono {db : Db} {height height' : Nat} {tip : Hash} (h : SharedUpTo N K db height tip)
    (hle : height' ≤ height) : SharedUpTo N K db height' tip :=
  fun k hk => h k (le_trans hk hle)

theorem SharedUpTo.stored {db db' : Db} {height : Nat} {tip : Hash} (h : SharedUpTo N K db height tip)
    (hdb : ∀ k ≤ height, ∀ sb, db.storedBlock k = some sb → db'.storedBlock k = some sb) :
    SharedUpTo N K db' height tip := by
  intro k hk
  obtain ⟨sb, hsb, hdesc⟩ := h k hk
  exact ⟨sb, hdb k hk sb hsb, hdesc⟩

theorem RecoveryPoint.stored (h : RecoveryPoint N K s) (hfork : s'.finalityForkState = s.finalityForkState)
    (hdb : ∀ k sb, s.db.storedBlock k = some sb → s'.db.storedBlock k = some sb) : RecoveryPoint N K s' := by
  intro hactive
  rw [hfork] at hactive ⊢
  exact (h hactive).stored fun k _ => hdb k

theorem RecoveryPoint.same (h : RecoveryPoint N K s) (hfork : s'.finalityForkState = s.finalityForkState)
    (hdb : s'.db = s.db) : RecoveryPoint N K s' :=
  h.stored hfork fun k sb hsb => by rw [hdb]; exact hsb

theorem RecoveryPoint.cleared (h : s.finalityForkState = .clear) : RecoveryPoint N K s := by
  intro hactive
  rw [h] at hactive
  cases hactive

/-- A main-chain block descends from all those below it. -/
theorem main_descends (hs : NodeOk N s) (hin : BlocksIn K s) : ∀ {j : Nat} {sb : StoredBlock},
    s.db.storedBlock j = some sb → SharedUpTo N K s.db j sb.entry.hash
  | j, sb, hsb => by
    intro k hk
    rcases Nat.eq_or_lt_of_le hk with rfl | hlt
    · exact ⟨sb, hsb, .refl⟩
    have hget : s.db.storedBlocks[j]? = some sb := by rw [← hs.built.storedBlock, hsb]
    obtain ⟨i, rfl⟩ : ∃ i, j = i + 1 := ⟨j - 1, by omega⟩
    obtain ⟨sb', hsb'⟩ : ∃ sb', s.db.storedBlocks[i]? = some sb' := by
      have := (List.getElem?_eq_some_iff.mp hget).1
      exact ⟨_, List.getElem?_eq_getElem (by omega)⟩
    have hlinked := hs.built.linked hget
    have hparent : ParentIn N K sb.entry.hash sb'.entry.hash := by
      refine ⟨sb.block, hin.main sb (List.mem_of_getElem? hget), hlinked.hash.symm, ?_⟩
      rw [hlinked.previous, Db.idBefore, hs.built.getBlockIdByHeight hsb']
    obtain ⟨sbk, hsbk, hdesc⟩ := main_descends hs hin (by rw [hs.built.storedBlock, hsb']) k (by omega)
    exact ⟨sbk, hsbk, .head hparent hdesc⟩

/-! ## Recording -/

theorem validateCompetingBlock_some {b : Block} {height : Nat} (h : s.validateCompetingBlock N b = some height) :
    ∃ parentHeight, height = parentHeight + 1 ∧
      ((s.findAlternative b.previousBlockHash).map BlockEntry.height).or (s.db.hashHeight b.previousBlockHash) =
        some parentHeight := by
  unfold Node.validateCompetingBlock at h
  split at h; · cases h
  rename_i parentHeight hparent
  dsimp only at h
  split at h; · cases h
  split at h; · cases h
  split at h; · cases h
  split at h; · cases h
  split at h; · cases h
  split at h; · cases h
  cases h
  exact ⟨parentHeight, rfl, hparent⟩

/-- A refused block on top of a main-chain block is recorded with a fork point. -/
theorem RecoveryPoint.recorded (h : RecoveryPoint N K s) (hs : NodeOk N s) (hin : BlocksIn K s) {b : Block}
    (hb : K b) {height : Nat} (hparent : s.findAlternative b.previousBlockHash = none)
    (hvalid : s.validateCompetingBlock N b = some height) :
    RecoveryPoint N K (s.recordFinalityFork height (N.prims.getBlockHash b)) := by
  obtain ⟨k, rfl, hk⟩ := validateCompetingBlock_some hvalid
  rw [hparent, Option.map_none, Option.none_or] at hk
  obtain ⟨sb, hsb, hhash⟩ := hs.built.hashHeight.mp hk
  -- the new block has all blocks up to its parent as ancestors
  have hnew : SharedUpTo N K s.db k (N.prims.getBlockHash b) := by
    intro j hj
    obtain ⟨sbj, hsbj, hdesc⟩ := main_descends hs hin (by rw [hs.built.storedBlock, hsb]) j hj
    exact ⟨sbj, hsbj, .head ⟨b, hb, rfl, hhash.symm⟩ hdesc⟩
  intro _
  simp only [Node.recordFinalityFork, Nat.add_sub_cancel]
  cases hactive : s.finalityForkState.active with
  | false => simpa using hnew
  | true =>
    have hold := h hactive
    simp only [if_true, Bool.not_true, Bool.false_or]
    split
    · exact hnew.mono (Nat.min_le_right _ _)
    · exact hold.mono (Nat.min_le_left _ _)

/-! ## Switching -/

theorem eraseAlternatives_fork (hashes : List Hash) (s : Node) :
    (s.eraseAlternatives hashes).finalityForkState = s.finalityForkState :=
  List.foldlRecOn (motive := fun t : Node => t.finalityForkState = s.finalityForkState) _ _ rfl fun _ ht _ _ => ht

/-- A switch that fails keeps the record, one that succeeds clears it. -/
theorem Switched.fork {handle : Node → Block → Option (Outcome × Node)} {altChain : List Hash} {discard result : Bool}
    (h : Switched N handle s altChain discard (.returned result) s') (hs : NodeOk N s) (habove : AltAbove 1 s) :
    s'.finalityForkState = if result then .clear else s.finalityForkState := by
  cases h with
  | refused => rfl
  | rolledBack hfork hup hroll =>
    rw [eraseAlternatives_fork, (hfork.rolledBack_forks hup hroll hs habove).fork]
    rfl
  | discarded => rfl
  | handedBack => rfl

/-! ## Runs -/

/-- Blocks of `K` are offered. -/
def offeredLts (N : NodeEnv) (K : Block → Prop) : Lts Node :=
  guardedLts N ⟨K, fun _ b => K b, fun _ _ => True, fun _ => True⟩

/-- A block that is refused for finality does not have a stored alternative as its parent,
no transaction of the pool repeats a tag when a block is offered, and the operator does
not roll back below the recorded height. -/
def recoveryGuards (N : NodeEnv) (K : Block → Prop) : Guards where
  genesis := K
  offer s b := K b ∧ DistinctTags N.P s.pool.view ∧
    (N.checkpoints.isFinalityViolation s.db.getChainHeight (getBlockHeight b) = true →
      s.findAlternative b.previousBlockHash = none)
  rollback s height := s.finalityForkState.active = true → s.finalityForkState.divergenceHeight ≤ height
  resync _ := True

theorem RecoveryPoint.offered (h : RecoveryPoint N K s) (hs : Calm N s) (hin : BlocksIn K s) {b : Block} (hb : K b)
    (hparent : N.checkpoints.isFinalityViolation s.db.getChainHeight (getBlockHeight b) = true →
      s.findAlternative b.previousBlockHash = none)
    {outcome : Outcome} (hcall : Offered N s b outcome s') : RecoveryPoint N K s' := by
  have hinv := Calm.callInv N K
  cases hcall with
  | refused => exact h
  | pushed _ _ hpre =>
    have hpos := hs.ok.built.pos
    obtain ⟨hlater, hspec⟩ := pushBlock_spec hs.ok.pool (by omega) hpre
    generalize s.pushBlock N b (N.prims.getBlockHash b) _ = r at hlater hspec
    obtain ⟨outcome, s₁⟩ := r
    cases hspec with
    | pushed _ hm =>
      refine h.stored hlater.fork ?_
      intro k sb hsb
      rw [hm.pushed.written, storedBlock_writeStored_lt, hsb]
      rw [hs.ok.built.storedBlock] at hsb
      rw [hs.ok.built.length]
      exact (List.getElem?_eq_some_iff.mp hsb).1
    | refused hdb => exact h.same hlater.fork hdb
    | threw hdb => exact h.same hlater.fork hdb
  | handled fuel _ _ _ hcall =>
    cases fuel with
    | zero => cases hcall
    | succ fuel =>
      rw [handleAlternativeBlock] at hcall
      cases handleWith_cases hcall with
      | unchanged => exact h
      | recorded hviolation hvalid => exact h.recorded hs.ok hin hb (hparent hviolation) hvalid
      | stored _ _ hinsert =>
        obtain ⟨alts, -, rfl⟩ := insertAlternative_some hinsert
        exact h.same rfl rfl
      | @switched _ _ _ s₁ _ _ haccepted _ hinsert hswitch =>
        obtain ⟨hs₁, hin₁⟩ := hinv.insert ⟨hs, hin⟩ hb haccepted hinsert
        have hcases := switchWith_cases hswitch
        obtain ⟨-, hreturned⟩ := hinv.switched (fun hs hb hcall => hinv.handled fuel hs hb hcall) ⟨hs₁, hin₁⟩ hcases
        cases outcome with
        | threw => exact absurd rfl hreturned
        | returned result =>
          have hfork := hcases.fork hs₁.ok hs₁.above
          cases result with
          | true => exact .cleared hfork
          | false =>
            obtain ⟨hdb, -⟩ := hcases.restored hs₁.ok hs₁.above
            obtain ⟨alts, -, rfl⟩ := insertAlternative_some hinsert
            exact h.same hfork hdb

theorem PoolCall.forks (h : PoolCall N s s') : SameForks s s' := by
  cases h with
  | transaction txBlob kept =>
    generalize (handleIncomingTx N s txBlob kept).2 = s', handleIncomingTx_cases (N := N) (s := s) txBlob kept = hin
    cases hin with
    | nothing => exact .refl s
    | added => exact ⟨rfl, rfl, rfl⟩
  | template => exact ⟨rfl, rfl, rfl⟩
  | difference => exact ⟨rfl, rfl, rfl⟩
  | idle => exact ⟨rfl, rfl, rfl⟩

theorem rollback_storedBlock (hs : NodeOk N s) (height k : Nat) :
    (s.rollbackBlockchainTo N height).db.storedBlock k = if k ≤ height then s.db.storedBlock k else none := by
  have hpos := hs.built.pos
  have hlen := hs.built.length
  have hb := hs.built.removeBlocks (s.db.getChainHeight - (height + 1)) (by omega)
  rw [Node.rollbackBlockchainTo]
  simp only
  rw [hb.storedBlock, hs.built.storedBlock, List.getElem?_take]
  split
  · rename_i hlt
    split
    · rfl
    · rw [List.getElem?_eq_none (by omega)]
  · rename_i hlt
    split
    · rw [List.getElem?_eq_none (by omega)]
    · rfl

theorem recovery_inductive (N : NodeEnv) (K : Block → Prop) :
    ∀ {s}, (guardedLts N (recoveryGuards N K)).Reachable s → BlocksIn K s ∧ RecoveryPoint N K s := by
  intro s h
  induction h with
  | init hinit =>
    obtain ⟨hin, hforks⟩ := guarded_init hinit
    exact ⟨hin, .cleared hforks.fork⟩
  | @step s s' hreach hstep ih =>
    have hnode := guarded_node hreach
    have hs := (node_inv hnode).ok
    obtain ⟨hin, hpoint⟩ := ih
    cases hstep with
    | offer hguard hoffer =>
      obtain ⟨hb, hdistinct, hparent⟩ := hguard
      have hcalm := Calm.of_reachable hnode hdistinct
      exact ⟨((Calm.callInv N K).offered ⟨hcalm, hin⟩ hb hoffer.cases).1.2,
        hpoint.offered hcalm hin hb hparent hoffer.cases⟩
    | pool hcall => exact ⟨hin.pool hcall, hpoint.same hcall.forks.fork hcall.step.db⟩
    | rollback hguard =>
      refine ⟨hin.rollback hs _, ?_⟩
      intro hactive
      refine (hpoint hactive).stored ?_
      intro k hk sb hsb
      rw [rollback_storedBlock hs, if_pos (le_trans hk (hguard hactive)), hsb]
    | resync =>
      rcases resyncToMajority_cases (N := N) (s := s) with hsame | ⟨-, hrolled⟩
      · rw [hsame]
        exact ⟨hin, hpoint⟩
      · rw [hrolled]
        have hroll := hin.rollback hs s.finalityForkState.divergenceHeight
        exact ⟨⟨hroll.main, hroll.alts⟩, .cleared rfl⟩

/-- The recorded height is a fork point of the main chain and the recorded tip, so
after `resyncToMajority` the main chain is a prefix of the recorded branch. -/
theorem recovery_point (h : (guardedLts N (recoveryGuards N K)).Reachable s) :
    RecoveryPoint N K s ∧ ∀ s', s.resyncToMajority N = (true, s') → ∀ k < s'.db.getChainHeight,
        ∃ sb, s'.db.storedBlock k = some sb ∧ Descends N K s.finalityForkState.competingTipHash sb.entry.hash := by
  obtain ⟨-, hpoint⟩ := recovery_inductive N K h
  have hs := (node_inv (guarded_node h)).ok
  refine ⟨hpoint, ?_⟩
  intro s' hresync k hk
  rcases resyncToMajority_cases (N := N) (s := s) with hsame | ⟨hactive, hrolled⟩
  · rw [hsame] at hresync
    cases hresync
  rw [hrolled, Prod.mk.injEq] at hresync
  obtain ⟨-, rfl⟩ := hresync
  -- a block that is left is at or below the recorded height
  have hle : k ≤ s.finalityForkState.divergenceHeight := by
    have hpos := hs.built.pos
    have hlen := hs.built.length
    have hb := hs.built.removeBlocks (s.db.getChainHeight - (s.finalityForkState.divergenceHeight + 1)) (by omega)
    have hk : k < ((removeLastBlock N.P)^[s.db.getChainHeight - (s.finalityForkState.divergenceHeight + 1)]
        s.db).getChainHeight := hk
    rw [hb.length, List.length_take] at hk
    omega
  obtain ⟨sb, hsb, hdesc⟩ := hpoint hactive k hle
  refine ⟨sb, ?_, hdesc⟩
  have hroll := rollback_storedBlock hs s.finalityForkState.divergenceHeight k
  rw [if_pos hle, hsb] at hroll
  exact hroll

/-! ### Runs -/

/-- A block on genesis arrives when the main chain has twelve blocks. It is refused and
recorded with genesis as the fork point. -/
theorem recovery_point_forkOne :
    ∃ s, (guardedLts flatNode (recoveryGuards flatNode fun _ => True)).Reachable s ∧
      s.finalityForkState.active = true ∧ s.finalityForkState.divergenceHeight = 0 ∧
      SharedUpTo flatNode (fun _ => True) s.db 0 s.finalityForkState.competingTipHash := by
  obtain ⟨s, hrun, hp⟩ := (Option.any_eq_true _ _).mp (show
    (offerBlocks flatNode (fun s b => decide (s.pool.transactions.entries = []) &&
        (s.findAlternative b.previousBlockHash).isNone) 2 flatGenesis (mineOn 11 flatGenesis 0 ++ [forkOne])).any
      (fun s => decide (s.finalityForkState.active = true ∧ s.finalityForkState.divergenceHeight = 0)) = true by
    decide +kernel)
  obtain ⟨hactive, hzero⟩ := of_decide_eq_true hp
  have hreach : (guardedLts flatNode (recoveryGuards flatNode fun _ => True)).Reachable s := by
    refine offerBlocks_run rfl trivial ?_ hrun
    intro s b _ hcheck
    rw [Bool.and_eq_true, decide_eq_true_eq, Option.isNone_iff_eq_none] at hcheck
    exact ⟨trivial, distinct_of_empty hcheck.1, fun _ => hcheck.2⟩
  refine ⟨s, hreach, hactive, hzero, ?_⟩
  have hpoint := (recovery_point hreach).1 hactive
  rw [hzero] at hpoint
  exact hpoint

/-- `forkOne` is stored while the chain has eleven blocks; `forkTwo` on top of it arrives
when it has thirteen. -/
def refusedBranch : List Block :=
  mineOn 10 flatGenesis 0 ++ [forkOne] ++ (mineOn 12 flatGenesis 0).drop 10 ++ [forkTwo]

def refusedBranchBlock (b : Block) : Prop := b ∈ flatGenesis :: refusedBranch

/-- `forkTwo` and all its ancestors. -/
def forkTwoAncestors : List Hash := [flatId forkTwo, flatId forkOne, flatId flatGenesis, nullHash]

theorem forkTwo_descends {x : Hash} (h : Descends flatNode refusedBranchBlock (flatId forkTwo) x) :
    x ∈ forkTwoAncestors := by
  have hclosed : ∀ b ∈ flatGenesis :: refusedBranch, flatId b ∈ forkTwoAncestors →
      b.previousBlockHash ∈ forkTwoAncestors := by decide +kernel
  induction h with
  | refl => simp [forkTwoAncestors]
  | tail _ hparent ih =>
    obtain ⟨b, hb, rfl, rfl⟩ := hparent
    exact hclosed b hb ih

/-- The height recorded for `forkTwo` is 1, where the main chain has a block that is no
ancestor of it, and that block is still there after the rollback. -/
theorem recovery_above_fork :
    ∃ s s' sb, (offeredLts flatNode refusedBranchBlock).Reachable s ∧ s.finalityForkState.active = true ∧
      s.finalityForkState.divergenceHeight = 1 ∧ s.db.storedBlock 1 = some sb ∧
      ¬ Descends flatNode refusedBranchBlock s.finalityForkState.competingTipHash sb.entry.hash ∧
      ¬ RecoveryPoint flatNode refusedBranchBlock s ∧
      s.resyncToMajority flatNode = (true, s') ∧ s'.db.storedBlock 1 = some sb := by
  obtain ⟨s, hrun, hp⟩ := (Option.any_eq_true _ _).mp (show
    (offerBlocks flatNode (fun _ _ => true) 2 flatGenesis refusedBranch).any (fun s =>
      decide (s.finalityForkState.active = true ∧ s.finalityForkState.divergenceHeight = 1 ∧
        s.finalityForkState.competingTipHash = flatId forkTwo ∧ s.db.getChainHeight = 13) &&
      (s.db.storedBlock 1).any fun sb => decide (sb.entry.hash ∉ forkTwoAncestors)) = true by
    decide +kernel)
  rw [Bool.and_eq_true, decide_eq_true_eq] at hp
  obtain ⟨⟨hactive, hone, htip, hlen⟩, hp⟩ := hp
  obtain ⟨sb, hsb, hnot⟩ := (Option.any_eq_true _ _).mp hp
  have hreach : (offeredLts flatNode refusedBranchBlock).Reachable s :=
    offerBlocks_run rfl List.mem_cons_self (fun _ b hb _ => List.mem_cons_of_mem _ hb) hrun
  have hs := (node_inv (guarded_node hreach)).ok
  have hdesc : ¬ Descends flatNode refusedBranchBlock s.finalityForkState.competingTipHash sb.entry.hash := by
    rw [htip]
    exact fun h => of_decide_eq_true hnot (forkTwo_descends h)
  have hroll := rollback_storedBlock hs 1 1
  rw [if_pos (le_refl 1), hsb] at hroll
  refine ⟨s, { s.rollbackBlockchainTo flatNode 1 with finalityForkState := .clear }, sb, hreach, hactive, hone, hsb, hdesc, ?_, ?_, hroll⟩
  · intro hpoint
    obtain ⟨sb', hsb', hdesc'⟩ := hpoint hactive 1 (by rw [hone])
    rw [hsb] at hsb'
    cases hsb'
    exact hdesc hdesc'
  · rw [Node.resyncToMajority]
    simp only [hactive, hone, hlen]
    rfl

end Discrete.L4
