import Discrete.L3Ledger.Links
import Discrete.L4Node.Finality

/-!
# What the difficulty depends on

`getDifficultyForNextBlock` takes the retarget over a sample of a block's ancestors. How
many it takes is computed from the length of the main chain, whether or not the block is
its tip.

* `difficulty_of_ancestry`: the difficulty is the retarget over the youngest ancestors, as
  many as the main chain's length allows. On top of the tip that is what the ancestry
  itself asks for, and in general it is exactly if the sample is of the same size.
* `difficulty_depends_on_length`: a block near genesis asks for one difficulty as the tip
  and for another as an alternative to a longer chain.
-/
namespace Discrete.L4
open List L1 L2 L3

/-- Timestamps and cumulative difficulties of a block and all its ancestors, youngest
first. All that is recorded of a block agrees, and only genesis has no parent. -/
inductive Ancestry (s : Node) : Hash → List (UInt64 × UInt64) → Prop where
  | root : s.db.hashHeight nullHash = none → Ancestry s nullHash []
  | block {h prev : Hash} {work : UInt64 × UInt64} {l : List (UInt64 × UInt64)} : h ≠ nullHash →
      ((s.db.hashHeight h).isSome ∨ (s.findAlternative h).isSome) →
      Records s.db s.findAlternative h prev work → Ancestry s prev l → Ancestry s h (work :: l)

variable {N : NodeEnv} {s : Node} {p : Hash} {l : List (UInt64 × UInt64)}

/-- Below a main-chain block there is the main chain. -/
theorem Ancestry.main (hs : NodeOk N s) : ∀ {k : Nat} {p : Hash} {l : List (UInt64 × UInt64)},
    s.db.hashHeight p = some k → Ancestry s p l → l = s.db.workBefore (k + 1)
  | k, p, l, hk, h => by
    cases h with
    | root hnone =>
      rw [hnone] at hk
      cases hk
    | @block _ prev work l _ _ hrecords hprev =>
      obtain ⟨sb, hsb, hhash⟩ := hs.built.hashHeight.mp hk
      obtain ⟨hp, hw⟩ := hrecords.main k hk
      have hlinked := hs.built.linked hsb
      rw [hs.built.getBlockMeta hsb] at hp hw
      rw [hlinked.prevHash] at hp
      have hmeta : s.db.metas[k]? = some sb.entry := by rw [hs.built.metas, getElem?_map, hsb]; rfl
      rw [workBefore_succ hmeta, hw]
      congr 1
      subst hp
      cases k with
      | zero =>
        rw [Db.idBefore] at hprev
        cases hprev with
        | root => rfl
        | block hne => exact absurd rfl hne
      | succ j =>
        obtain ⟨sb', hsb'⟩ : ∃ sb', s.db.storedBlocks[j]? = some sb' := by
          have := (List.getElem?_eq_some_iff.mp hsb).1
          exact ⟨_, getElem?_eq_getElem (by omega)⟩
        refine Ancestry.main hs ?_ hprev
        rw [hs.built.hashHeight]
        exact ⟨sb', hsb', (hs.built.getBlockIdByHeight hsb').symm⟩

/-- A walk along the links of an ancestry comes to its end or to the size of the sample. -/
theorem Ancestry.walk (h : Ancestry s p l) (n : Nat) : difficultyWalk s.db s.findAlternative n p = some (l.take n) := by
  have hsome : ∀ (n : Nat) {p l}, Ancestry s p l → (difficultyWalk s.db s.findAlternative n p).isSome := by
    intro n
    induction n with
    | zero => exact fun _ => rfl
    | succ n ih =>
      intro p l h
      rw [difficultyWalk]
      split
      · rfl
      rename_i hne
      cases h with
      | root => exact absurd rfl hne
      | block _ hknown hrecords hprev =>
        split
        · rename_i e he
          rw [Option.isSome_map, (hrecords.stored e he).1]
          exact ih hprev
        · rename_i hnone
          split
          · rename_i hnone'
            rw [hnone, hnone'] at hknown
            exact absurd hknown (by simp)
          · rename_i k hk
            simp only
            rw [Option.isSome_map, (hrecords.main k hk).1]
            exact ih hprev
  obtain ⟨back, hback⟩ := Option.isSome_iff_exists.mp (hsome n h)
  rw [hback]
  congr 1
  refine difficultyWalk_take (R := Ancestry s) ?_ ?_ n h hback
  · intro l hl
    cases hl with
    | root => rfl
    | block hne => exact absurd rfl hne
  · intro h l hne hl
    cases hl with
    | root => exact absurd rfl hne
    | block _ _ hrecords hprev => exact ⟨_, _, _, rfl, hprev, hrecords⟩

/-- The retarget over a sample of the ancestry, whichever way it is read. -/
theorem Ancestry.difficulty (hs : NodeOk N s) (hp : p ≠ nullHash) (h : Ancestry s p l) :
    getDifficultyForNextBlock N.toEnv s.db s.findAlternative p =
      sampleDifficulty N.currency.testnet (sampleSize s.db.getChainHeight) l := by
  cases hk : s.db.hashHeight p with
  | some k =>
    obtain ⟨sb, hsb, -⟩ := hs.built.hashHeight.mp hk
    have hlt : k < s.db.getChainHeight := by
      rw [hs.built.length]
      exact (List.getElem?_eq_some_iff.mp hsb).1
    rw [getDifficultyForNextBlock_of_main hp hk hlt, h.main hs hk]
  | none =>
    unfold getDifficultyForNextBlock
    rw [if_neg hp]
    simp only [hk, sampleSize_eq, h.walk]
    rfl

/-! ## Samples of different sizes -/

/-- An amount of work no retarget overlooks. -/
def steepWork : UInt64 := 1000000000000

/-- All the work is done by the `n` youngest blocks. -/
def steepAncestry (n len : Nat) : List (UInt64 × UInt64) :=
  List.replicate n (0, steepWork) ++ List.replicate (len - n) (0, 0)

/-- Nothing changes within a sample of the young blocks alone. -/
theorem nextDifficulty_level (testnet : Bool) (n : Nat) (w : UInt64) :
    nextDifficulty testnet (List.replicate n 0) (List.replicate n w) = nextDifficulty testnet [] [] := by
  have hfloor : nextDifficulty testnet [] [] = if testnet then 1 else max 1 minimumDifficulty := rfl
  rw [hfloor]
  unfold nextDifficulty
  dsimp only
  by_cases hlen : n ≤ 1
  · rw [if_pos (.inl (by simpa using hlen))]
  · have hlevel : (List.replicate n w).getD
        (min difficultyWindow (min (List.replicate n (0 : UInt64)).length (List.replicate n w).length - 1)) 0 -
          (List.replicate n w).getD 0 0 = 0 := by
      simp only [length_replicate, Nat.min_self]
      rw [getD_replicate _ (by omega), getD_replicate _ (by omega), UInt64.sub_self]
    rw [if_neg (by simpa using hlen), hlevel, UInt64.zero_div, if_pos rfl, ite_self, ite_self]

theorem nextDifficulty_steep : ∀ (testnet : Bool), ∀ n ∈ List.range' 1 60,
    nextDifficulty testnet (List.replicate (n + 1) 0) (0 :: List.replicate n steepWork) ≠
      nextDifficulty testnet [] [] := by
  decide +kernel

/-- Two samples of one ancestry give the same difficulty, whatever the timestamps and the
work in it, exactly if they are the same blocks. -/
theorem sampleDifficulty_agrees_iff (testnet : Bool) {n m len : Nat} (hn : n ≤ difficultyWindow + 1) (hn0 : 0 < n)
    (hm : m ≤ difficultyWindow + 1) (hm0 : 0 < m) :
    (∀ l : List (UInt64 × UInt64), l.length = len → sampleDifficulty testnet n l = sampleDifficulty testnet m l) ↔
      min n len = min m len := by
  -- a sample that reaches the old blocks sees the work, a smaller one does not
  have hdiffer : ∀ {n m : Nat}, 0 < n → n < m → m ≤ difficultyWindow + 1 → m ≤ len →
      ∃ l : List (UInt64 × UInt64), l.length = len ∧ sampleDifficulty testnet n l ≠ sampleDifficulty testnet m l := by
    intro n m hn0 hlt hm hlen
    refine ⟨steepAncestry (m - 1) len, by simp [steepAncestry]; omega, ?_⟩
    have hyoung : (steepAncestry (m - 1) len).take n = List.replicate n (0, steepWork) := by
      rw [steepAncestry, take_append_of_le_length (by simp; omega), take_replicate]
      congr 1
      omega
    have hold : (steepAncestry (m - 1) len).take m = List.replicate (m - 1) (0, steepWork) ++ [(0, 0)] := by
      obtain ⟨k, rfl⟩ : ∃ k, m = k + 1 := ⟨m - 1, by omega⟩
      rw [steepAncestry, Nat.add_sub_cancel, take_append, take_of_length_le (by simp),
        length_replicate, Nat.add_sub_cancel_left, take_replicate, Nat.min_eq_left (by omega)]
      rfl
    have hsteep := nextDifficulty_steep testnet (m - 1) (by
      rw [mem_range'_1]
      unfold difficultyWindow at hm
      omega)
    rw [sampleDifficulty, sampleDifficulty, hyoung, hold]
    simp only [reverse_append, reverse_replicate, map_replicate, reverse_cons,
      reverse_nil, nil_append, singleton_append, map_cons]
    rw [nextDifficulty_level testnet n steepWork, ← replicate_succ]
    exact hsteep.symm
  constructor
  · intro hagree
    by_contra hne
    rcases Nat.lt_or_gt_of_ne hne with hlt | hlt
    · obtain ⟨l, hl, hdiff⟩ := @hdiffer (min n len) (min m len) (by omega) hlt (by omega) (by omega)
      apply hdiff
      rw [sampleDifficulty_take testnet (m := n) (by rw [hl]; omega),
        sampleDifficulty_take testnet (n := min m len) (m := m) (by rw [hl]; omega)]
      exact hagree l hl
    · obtain ⟨l, hl, hdiff⟩ := @hdiffer (min m len) (min n len) (by omega) hlt (by omega) (by omega)
      apply hdiff
      rw [sampleDifficulty_take testnet (m := m) (by rw [hl]; omega),
        sampleDifficulty_take testnet (n := min n len) (m := n) (by rw [hl]; omega)]
      exact (hagree l hl).symm
  · intro hsame l hl
    exact sampleDifficulty_take testnet (by rw [hl]; exact hsame)

theorem sampleSize_pos (n : Nat) : 0 < sampleSize n := by
  unfold sampleSize difficultyWindow
  omega

theorem sampleSize_le (n : Nat) : sampleSize n ≤ difficultyWindow + 1 := Nat.min_le_right _ _

/-! ## Every reachable node -/

/-- The difficulty on top of a known block is the retarget over the youngest of its
ancestors. As many are read as the length of the main chain says: what the ancestors
themselves ask for if the block is the tip, and otherwise, whatever timestamps and work
they have, exactly if as many would be read with them as the main chain. -/
theorem difficulty_of_ancestry (h : (nodeLts N).Reachable s) (hp : p ≠ nullHash) (hl : Ancestry s p l) :
    getDifficultyForNextBlock N.toEnv s.db s.findAlternative p =
        sampleDifficulty N.currency.testnet (sampleSize s.db.getChainHeight) l ∧ (p = s.db.getTailId →
        getDifficultyForNextBlock N.toEnv s.db s.findAlternative p = requiredDifficulty N.currency.testnet l) ∧
      ((∀ l' : List (UInt64 × UInt64), l'.length = l.length →
          sampleDifficulty N.currency.testnet (sampleSize s.db.getChainHeight) l' =
            requiredDifficulty N.currency.testnet l') ↔
        min (sampleSize s.db.getChainHeight) l.length = min (sampleSize l.length) l.length) := by
  have hs := (node_inv h).ok
  have hdiff := hl.difficulty hs hp
  refine ⟨hdiff, ?_, ?_⟩
  · intro htail
    obtain ⟨k, hk⟩ := Option.isSome_iff_exists.mp (htail ▸ hs.built.tail)
    have hmain := hl.main hs hk
    have hlast : k + 1 = s.db.getChainHeight := hs.built.tail_height (htail ▸ hk)
    have hlen : l.length = s.db.getChainHeight := by
      rw [hmain, length_workBefore, hlast, Nat.min_self]
    rw [hdiff, requiredDifficulty, hlen]
  · rw [← sampleDifficulty_agrees_iff N.currency.testnet (sampleSize_le _) (sampleSize_pos _) (sampleSize_le _)
      (sampleSize_pos _)]
    constructor
    · intro hagree l' hl'
      rw [hagree l' hl', requiredDifficulty, hl']
    · intro hagree l' hl'
      rw [requiredDifficulty, hl']
      exact hagree l' hl'

/-! ### Runs -/

/-- Genesis and one block on it, as a state records them. -/
structure OnGenesis (s : Node) (genesis p : Hash) (work workGenesis : UInt64 × UInt64) : Prop where
  null : s.db.hashHeight nullHash = none
  ids : p ≠ nullHash ∧ genesis ≠ nullHash
  known : (s.db.hashHeight p).isSome ∨ (s.findAlternative p).isSome
  main : (s.db.hashHeight genesis).isSome
  records : Records s.db s.findAlternative p genesis work
  recordsGenesis : Records s.db s.findAlternative genesis nullHash workGenesis

instance (s : Node) (genesis p : Hash) (work workGenesis : UInt64 × UInt64) :
    Decidable (OnGenesis s genesis p work workGenesis) :=
  decidable_of_iff (s.db.hashHeight nullHash = none ∧ (p ≠ nullHash ∧ genesis ≠ nullHash) ∧
      ((s.db.hashHeight p).isSome ∨ (s.findAlternative p).isSome) ∧ (s.db.hashHeight genesis).isSome ∧
      Records s.db s.findAlternative p genesis work ∧ Records s.db s.findAlternative genesis nullHash workGenesis)
    ⟨fun ⟨h1, h2, h3, h4, h5, h6⟩ => ⟨h1, h2, h3, h4, h5, h6⟩,
      fun h => ⟨h.null, h.ids, h.known, h.main, h.records, h.recordsGenesis⟩⟩

theorem OnGenesis.ancestry {genesis : Hash} {work workGenesis : UInt64 × UInt64}
    (h : OnGenesis s genesis p work workGenesis) : Ancestry s p [work, workGenesis] :=
  .block h.ids.1 h.known h.records (.block h.ids.2 (.inl h.main) h.recordsGenesis (.root h.null))

/-- `forkOne` as an alternative to a chain of three blocks. -/
def besideChain : List Block := mineOn 1 flatGenesis 0 ++ [forkOne] ++ (mineOn 2 flatGenesis 0).drop 1

/-- The difficulty on top of `forkOne` beside a longer chain is the retarget over both its
ancestors. -/
theorem difficulty_of_forkOne :
    ∃ s, (nodeLts flatNode).Reachable s ∧ Ancestry s (flatId forkOne) [(930, 2), (1000, 1)] ∧
      getDifficultyForNextBlock flatNode.toEnv s.db s.findAlternative (flatId forkOne) =
        sampleDifficulty true (sampleSize s.db.getChainHeight) [(930, 2), (1000, 1)] := by
  obtain ⟨s, hreach, hrecords⟩ := exists_addBlocks (N := flatNode)
    (P := fun s => OnGenesis s (flatId flatGenesis) (flatId forkOne) (930, 2) (1000, 1)) 2 flatGenesis besideChain rfl
    (by decide +kernel)
  exact ⟨s, hreach, hrecords.ancestry, (difficulty_of_ancestry hreach hrecords.ids.1 hrecords.ancestry).1⟩

/-- The same block with the same ancestors: as an alternative to a chain of three blocks
it asks for a difficulty of 4, as the tip for 1. -/
theorem difficulty_depends_on_length :
    ∃ s s' p l, (nodeLts flatNode).Reachable s ∧ (nodeLts flatNode).Reachable s' ∧ p ≠ nullHash ∧
      Ancestry s p l ∧ Ancestry s' p l ∧ s'.db.getTailId = p ∧
      getDifficultyForNextBlock flatNode.toEnv s.db s.findAlternative p = 4 ∧
      getDifficultyForNextBlock flatNode.toEnv s'.db s'.findAlternative p = 1 := by
  obtain ⟨s, hreach, hrecords, hdiff⟩ := exists_addBlocks (N := flatNode)
    (P := fun s => OnGenesis s (flatId flatGenesis) (flatId forkOne) (930, 2) (1000, 1) ∧
      getDifficultyForNextBlock flatNode.toEnv s.db s.findAlternative (flatId forkOne) = 4)
    2 flatGenesis besideChain rfl (by decide +kernel)
  obtain ⟨s', hreach', hrecords', htail, hdiff'⟩ := exists_addBlocks (N := flatNode)
    (P := fun s => OnGenesis s (flatId flatGenesis) (flatId forkOne) (930, 2) (1000, 1) ∧
      s.db.getTailId = flatId forkOne ∧
      getDifficultyForNextBlock flatNode.toEnv s.db s.findAlternative (flatId forkOne) = 1)
    2 flatGenesis [forkOne] rfl (by decide +kernel)
  exact ⟨s, s', flatId forkOne, _, hreach, hreach', hrecords.ids.1, hrecords.ancestry, hrecords'.ancestry, htail,
    hdiff, hdiff'⟩

end Discrete.L4
