import Discrete.L4Node.Invariant

/-!
# First-seen finality

A block that arrives as an alternative is refused when it is more than
`finalityDepth` below the tip (`Checkpoints::is_alternative_block_allowed`). The test
looks at the height of the block that arrives, not at the height its branch forks at,
and stored alternative blocks are never looked at again.

* `deep_switch`: a branch that was stored while it forked at the finality depth, and
  whose later blocks arrive when the main chain is longer, replaces blocks below the
  finality depth.
* `replaces_recent`: a call that finds no stored alternative block below the finality
  depth replaces no main-chain block below it, however the reorganisations in it nest.
-/
namespace Discrete.L4
open L1 L2 L3

/-- The node without its operator's calls. -/
def unattendedLts (N : NodeEnv) : Lts Node where
  Init := NodeInit N
  Step s s' := BlockCall N s s' ∨ PoolCall N s s'

theorem unattended_node {N : NodeEnv} {s : Node} (h : (unattendedLts N).Reachable s) : (nodeLts N).Reachable s := by
  refine Lts.Reachable.mono (M := unattendedLts N) (N := nodeLts N) (fun hinit => hinit) ?_ h
  intro s s' hstep
  exact Or.imp_right Or.inl hstep

/-- Every main-chain block that is no longer where it was had been at most
`finalityDepth` below the tip. -/
def ReplacesRecent (s s' : Node) : Prop :=
  ∀ height < s.db.getChainHeight, s'.db.storedBlock height ≠ s.db.storedBlock height →
    s.db.getChainHeight ≤ height + finalityDepth

theorem replaces_recent {N : NodeEnv} (hnone : N.checkpoints = .none) {s s' : Node}
    (h : (unattendedLts N).Reachable s)
    (hfresh : ∀ x ∈ s.alternativeChains.entries,
      N.checkpoints.isFinalityViolation s.db.getChainHeight x.2.height = false)
    (hstep : (unattendedLts N).Step s s') : ReplacesRecent s s' := by
  have hinv := node_inv (unattended_node h)
  have hpos := hinv.ok.built.pos
  have hviolation : ∀ height, N.checkpoints.isFinalityViolation s.db.getChainHeight height = false →
      s.db.getChainHeight ≤ height + finalityDepth := by
    intro height hno
    rw [hnone] at hno
    simpa [Checkpoints.isFinalityViolation] using hno
  rcases hstep with hcall | hcall
  · -- nothing is popped below the finality depth, nor below genesis
    have habove : AltAbove (max 1 (s.db.getChainHeight - finalityDepth)) s := by
      intro x hx
      have h1 := hinv.above x hx
      have h2 := hviolation _ (hfresh x hx)
      omega
    have hallowed : ∀ height, N.checkpoints.isAlternativeBlockAllowed s.db.getChainHeight height = true →
        max 1 (s.db.getChainHeight - finalityDepth) ≤ height := by
      intro height hok
      unfold Checkpoints.isAlternativeBlockAllowed at hok
      split at hok
      · cases hok
      split at hok
      · cases hok
      rename_i h0 hno
      have := hviolation height (by simpa using hno)
      omega
    obtain ⟨ht, -⟩ := hcall.beats (by omega) hinv.ok (by omega) habove hallowed
    have hsame := (ht.trail.below (by omega)).2
    intro height _ hchanged
    by_contra hlt
    exact hchanged (hsame height (by omega))
  · intro height _ hchanged
    rw [hcall.step.db] at hchanged
    exact absurd rfl hchanged

/-! ### Runs -/

/-- `n` blocks on top of `b`, the block at `height`, one every 90 seconds. -/
def mineOn : Nat → Block → UInt32 → List Block
  | 0, _, _ => []
  | n + 1, b, height =>
    let next := flatNext b (height + 1) (b.timestamp + 90) []
    next :: mineOn n next (height + 1)

/-- A branch from genesis whose timestamps promise more work. -/
def forkOne : Block := flatNext flatGenesis 1 930 []
def forkTwo : Block := flatNext forkOne 2 840 []
def forkThree : Block := flatNext forkTwo 3 840 []

/-- With one main-chain block and the branch's first block stored, its second block
replaces the main-chain block. -/
theorem replaces_recent_forkTwo :
    ∃ s s', (unattendedLts flatNode).Reachable s ∧ (∀ x ∈ s.alternativeChains.entries,
        flatNode.checkpoints.isFinalityViolation s.db.getChainHeight x.2.height = false) ∧
      s.alternativeChains.entries.length = 1 ∧ BlockCall flatNode s s' ∧
      s'.db.storedBlock 1 ≠ s.db.storedBlock 1 ∧ ReplacesRecent s s' := by
  obtain ⟨s, hrun, hp⟩ := (Option.any_eq_true _ _).mp (show
    (addBlocks flatNode 2 flatGenesis (mineOn 1 flatGenesis 0 ++ [forkOne])).any (fun s =>
      decide ((∀ x ∈ s.alternativeChains.entries,
          flatNode.checkpoints.isFinalityViolation s.db.getChainHeight x.2.height = false) ∧
        s.alternativeChains.entries.length = 1) &&
      (addNewBlock flatNode 2 s forkTwo none).any fun r =>
        decide ((r.2.db.storedBlock 1).map (·.entry.hash) ≠ (s.db.storedBlock 1).map (·.entry.hash))) = true by
    decide +kernel)
  rw [Bool.and_eq_true, decide_eq_true_eq] at hp
  obtain ⟨⟨hfresh, hone⟩, hcall⟩ := hp
  obtain ⟨⟨outcome, s'⟩, hcall, hr⟩ := (Option.any_eq_true _ _).mp hcall
  have hreach : (unattendedLts flatNode).Reachable s := addBlocks_run id .inl rfl hrun
  have hblock : BlockCall flatNode s s' := .mk 2 forkTwo none (by simp) hcall
  refine ⟨s, s', hreach, hfresh, hone, hblock, ?_, replaces_recent rfl hreach hfresh (.inl hblock)⟩
  intro hsame
  exact of_decide_eq_true hr (by rw [hsame])

/-- The branch's first block is stored when the main chain has eleven blocks. With
twelve, its third block makes it the main chain: block 1 goes, eleven below the tip. -/
theorem deep_switch :
    ∃ s s', (unattendedLts flatNode).Reachable s ∧ BlockCall flatNode s s' ∧ s.db.getChainHeight = 12 ∧
      s'.db.storedBlock 1 ≠ s.db.storedBlock 1 ∧ ¬ ReplacesRecent s s' := by
  obtain ⟨s, hrun, hp⟩ := (Option.any_eq_true _ _).mp (show
    (addBlocks flatNode 2 flatGenesis ((mineOn 10 flatGenesis 0 ++ [forkOne]) ++
        ((mineOn 11 flatGenesis 0).drop 10 ++ [forkTwo]))).any (fun s =>
      decide (s.db.getChainHeight = 12) &&
      (addNewBlock flatNode 2 s forkThree none).any fun r =>
        decide ((r.2.db.storedBlock 1).map (·.entry.hash) ≠ (s.db.storedBlock 1).map (·.entry.hash))) = true by
    decide +kernel)
  rw [Bool.and_eq_true, decide_eq_true_eq] at hp
  obtain ⟨hlen, hcall⟩ := hp
  obtain ⟨⟨outcome, s'⟩, hcall, hr⟩ := (Option.any_eq_true _ _).mp hcall
  have hchanged : s'.db.storedBlock 1 ≠ s.db.storedBlock 1 := by
    intro hsame
    exact of_decide_eq_true hr (by rw [hsame])
  refine ⟨s, s', addBlocks_run id .inl rfl hrun, .mk 2 forkThree none (by simp) hcall, hlen, hchanged, ?_⟩
  intro hrecent
  have := hrecent 1 (by omega) hchanged
  rw [hlen] at this
  exact absurd this (by decide)

end Discrete.L4
