import Discrete.L4Node.Lineage

/-!
# Fork choice

A block that arrives as an alternative becomes the tip when it has more work than the
tip. Its work is counted with the difficulty it was asked for as an alternative; when its
branch is connected the difficulties are computed again.

* `fork_choice`: where both are the same, that is above `settledHeight`, no stored
  alternative has more work than the tip, the work of the tip never decreases, and a
  switch increases it.
* `switch_without_gain`: near genesis a switch is reported although the new tip has no
  more work than the old one.
-/
namespace Discrete.L4
open List L1 L2 L3

variable {N : NodeEnv} {K : Block → Prop} {s s' : Node}

/-- A call that sets `m_switched_to_alt_chain`: the block passed as an alternative, and the
switch to its branch returned true.
mirrors Blockchain.cpp:1555-1596 -/
inductive ReportsSwitch (N : NodeEnv) (s : Node) (b : Block) : Node → Prop where
  | mk {prevalidated : Option Hash} {br : Branch} {bei : BlockEntry} {isACheckpoint : Bool} {s₁ s' : Node} (fuel : Nat) :
      s.haveBlock (N.prims.getBlockHash b) = false → b.previousBlockHash ≠ s.db.getTailId →
      Accepted N s b (N.prims.getBlockHash b) prevalidated br bei isACheckpoint →
      (isACheckpoint = true ∨ s.tipDifficulty < bei.cumulativeDifficulty) →
      s.insertAlternative (N.prims.getBlockHash b) bei = some s₁ →
      switchToAlternativeBlockchain N fuel s₁ (br.altChain ++ [N.prims.getBlockHash b]) isACheckpoint =
        some (.returned true, s') → ReportsSwitch N s b s'

/-- Every block known has its lineage, and none of the alternatives has more work than the
tip. -/
structure Chosen (N : NodeEnv) (K : Block → Prop) (s : Node) : Prop extends Lined N K s where
  heaviest : ∀ x ∈ s.alternativeChains.entries, x.2.cumulativeDifficulty ≤ s.tipDifficulty

theorem tipDifficulty_congr (h : s'.db = s.db) : s'.tipDifficulty = s.tipDifficulty := by
  rw [Node.tipDifficulty, h]
  rfl

/-- Fewer alternatives on the same chain. -/
theorem Chosen.fewer (h : Chosen N K s) (hcalm : Calm N s') (hin : BlocksIn K s') (hdb : s'.db = s.db)
    (halts : ∀ x ∈ s'.alternativeChains.entries, x ∈ s.alternativeChains.entries) : Chosen N K s' := by
  refine ⟨⟨hcalm, hin, fun x hx => h.alts x (halts x hx)⟩, ?_⟩
  intro x hx
  rw [tipDifficulty_congr hdb]
  exact h.heaviest x (halts x hx)

variable {b : Block} {prevalidated : Option Hash} {br : Branch} {bei : BlockEntry} {isACheckpoint : Bool}

variable (hnone : N.checkpoints = .none) (hK : CollisionFree N K) (h : Lined N K s) (hfits : WorkFits N K)
include hK h

/-- A settled block is stored. -/
theorem Lined.insert (hb : K b) (hsettled : settledHeight ≤ getBlockHeight b)
    (haccepted : Accepted N s b (N.prims.getBlockHash b) prevalidated br bei isACheckpoint)
    (hinsert : s.insertAlternative (N.prims.getBlockHash b) bei = some s') :
    Lined N K s' ∧ LinedEntry N K (N.prims.getBlockHash b, bei) ∧ s'.db = s.db ∧
      ∀ x, x ∈ s'.alternativeChains.entries ↔ x = (N.prims.getBlockHash b, bei) ∨ x ∈ s.alternativeChains.entries := by
  have hentry := haccepted.lineage hK h hb hsettled
  obtain ⟨hcalm, hin⟩ := (Calm.callInv N K).insert ⟨h.calm, h.blocks⟩ hb haccepted hinsert
  obtain ⟨alts, halts, rfl⟩ := insertAlternative_some hinsert
  refine ⟨⟨hcalm, hin, ?_⟩, hentry, rfl, fun x => MultiIndex.mem_insert halts⟩
  intro x hx
  rcases (MultiIndex.mem_insert halts).mp hx with rfl | hx
  · exact hentry
  · exact h.alts x hx

/-! ## Blocks without more work -/

variable {fuel : Nat} {outcome : Outcome}

/-- A block whose lineage has no more work than the tip, and that no checkpoint names, is
stored or changes nothing but the record of a refused fork. -/
theorem Lined.quiet {d : Block} (hd : K d) (hsettled : settledHeight ≤ getBlockHeight d) {l : List (UInt64 × UInt64)}
    (hl : Lineage N K d l) (hle : tipWork l ≤ s.tipDifficulty)
    (hpoint : N.checkpoints.checkBlock (getBlockHeight d) (N.prims.getBlockHash d) ≠ (true, true))
    (hcall : handleAlternativeBlock N fuel s d (N.prims.getBlockHash d) prevalidated = some (outcome, s')) :
    (Calm N s' ∧ s'.db = s.db ∧ s'.alternativeChains = s.alternativeChains ∧
      s'.orphanBlocksIndex = s.orphanBlocksIndex) ∨
    ∃ br bei, Accepted N s d (N.prims.getBlockHash d) prevalidated br bei false ∧
      s.insertAlternative (N.prims.getBlockHash d) bei = some s' ∧ bei.cumulativeDifficulty ≤ s.tipDifficulty := by
  have hwork : ∀ {br bei isACheckpoint}, Accepted N s d (N.prims.getBlockHash d) prevalidated br bei isACheckpoint →
      bei.cumulativeDifficulty ≤ s.tipDifficulty := by
    intro br bei isACheckpoint haccepted
    obtain ⟨l', hl', -, hcum⟩ := (haccepted.lineage hK h hd hsettled).lineage
    simp only at hcum hl'
    obtain ⟨-, rfl, -, -⟩ := haccepted.entry
    rw [hcum, hl'.unique hK hl]
    exact hle
  cases fuel with
  | zero => cases hcall
  | succ fuel =>
    rw [handleAlternativeBlock] at hcall
    cases handleWith_cases hcall with
    | unchanged => exact .inl ⟨h.calm, rfl, rfl, rfl⟩
    | recorded => exact .inl ⟨((Calm.callInv N K).record ⟨h.calm, h.blocks⟩ hd).1, rfl, rfl, rfl⟩
    | stored haccepted _ hinsert => exact .inr ⟨_, _, haccepted, hinsert, hwork haccepted⟩
    | switched haccepted hmore =>
      rcases hmore with hcp | hmore
      · obtain ⟨-, -, hheight, hcheck⟩ := haccepted.entry
        rw [hcp, ← hheight] at hcheck
        exact absurd hcheck hpoint
      · exact absurd hmore (UInt64.not_lt.mpr (hwork haccepted))

omit h

include hnone in
theorem Chosen.quiet {d : Block} (h : Chosen N K s) (hd : K d) (hsettled : settledHeight ≤ getBlockHeight d)
    {l : List (UInt64 × UInt64)} (hl : Lineage N K d l) (hle : tipWork l ≤ s.tipDifficulty)
    (hcall : handleAlternativeBlock N fuel s d (N.prims.getBlockHash d) prevalidated = some (outcome, s')) :
    Chosen N K s' ∧ s'.db = s.db := by
  have hpoint : N.checkpoints.checkBlock (getBlockHeight d) (N.prims.getBlockHash d) ≠ (true, true) := by
    rw [hnone]
    exact Bool.noConfusion ∘ congrArg Prod.snd
  rcases h.toLined.quiet hK hd hsettled hl hle hpoint hcall with
    ⟨hcalm, hdb, halts, -⟩ | ⟨br, bei, haccepted, hinsert, hwork⟩
  · refine ⟨h.fewer hcalm ⟨?_, ?_⟩ hdb ?_, hdb⟩
    · rw [hdb]
      exact h.blocks.main
    · rw [halts]
      exact h.blocks.alts
    · rw [halts]
      exact fun _ hx => hx
  · obtain ⟨hlined, -, hdb, hmem⟩ := h.toLined.insert hK hd hsettled haccepted hinsert
    refine ⟨⟨hlined, ?_⟩, hdb⟩
    intro x hx
    rw [tipDifficulty_congr hdb]
    rcases (hmem x).mp hx with rfl | hx
    · exact hwork
    · exact h.heaviest x hx

omit hK

theorem Chosen.handBack (hnone : N.checkpoints = .none) (hK : CollisionFree N K) :
    ∀ {l : List Block} {s s' : Node} {outcome : Outcome}, Chosen N K s →
      (∀ d ∈ l, K d ∧ settledHeight ≤ getBlockHeight d ∧ ∃ l, Lineage N K d l ∧ tipWork l ≤ s.tipDifficulty) →
      L4.handBack (fun s b => handleAlternativeBlock N fuel s b (N.prims.getBlockHash b) none) s l =
        some (outcome, s') → Chosen N K s' ∧ s'.db = s.db
  | [], s, s', outcome, hs, _, h => by
    cases h
    exact ⟨hs, rfl⟩
  | d :: l, s, s', outcome, hs, hl, h => by
    obtain ⟨hd, hsettled, ld, hld, hle⟩ := hl d (by simp)
    rw [L4.handBack] at h
    split at h
    · rename_i s₁ heq
      obtain ⟨hs₁, hdb⟩ := hs.quiet hnone hK hd hsettled hld hle heq
      obtain ⟨hs', hdb'⟩ := Chosen.handBack hnone hK hs₁ (by
        intro d' hd'
        rw [tipDifficulty_congr hdb]
        exact hl d' (by simp [hd'])) h
      exact ⟨hs', hdb'.trans hdb⟩
    · exact hs.quiet hnone hK hd hsettled hld hle h

/-! ## Switching -/

/-- The main chain before and after a branch is connected: the blocks below the fork stay,
those above it are replaced by the branch. -/
structure Replaced (s : Node) (altChain : List Hash) (splitHeight : Nat) (disconnected : List Block) (s₂ : Node)
    (base old new : List StoredBlock) : Prop where
  split : base.length = splitHeight
  before : s.db.storedBlocks = base ++ old
  after : s₂.db.storedBlocks = base ++ new
  disconnected : disconnected = old.map StoredBlock.block
  connected : new.map StoredBlock.block = altChain.map fun k => (s.alternativeAt k).bl

variable {altChain : List Hash} {splitHeight : Nat} {disconnected : List Block} {s₁ s₂ : Node}

include h

theorem Lined.connected (hfork : ForkedFor N s altChain splitHeight disconnected s₁)
    (hup : s₁.connect N altChain = (.all, s₂)) :
    Lined N K s₂ ∧ SameForks s s₂ ∧ ∃ base old new, Replaced s altChain splitHeight disconnected s₂ base old new := by
  have hinv := Calm.callInv N K
  obtain ⟨hle, hlt, hI₁, -, hforks⟩ := hinv.forkedAt ⟨h.calm, h.blocks⟩ hfork.toForkedAt
  have hat : ∀ k, s₁.alternativeAt k = s.alternativeAt k := by
    intro k
    rw [Node.alternativeAt, Node.findAlternative, hforks.alts]
    rfl
  obtain ⟨⟨hcalm, hin⟩, -⟩ := hinv.connect altChain hI₁ (fun k hk => by rw [hat]; exact hfork.versions k hk)
  obtain ⟨old, s', heq, -, hlen, -, -, hdown⟩ :=
    disconnect_spec (s.db.getChainHeight - splitHeight) [] h.calm.ok (by omega)
  rw [append_nil, hfork.down, Prod.mk.injEq] at heq
  obtain ⟨rfl, rfl⟩ := heq
  obtain ⟨hlater, -, new, hnew, hrow⟩ := connect_all hI₁.1.ok .nil hup
  rw [hup] at hcalm hin
  have hforks₂ := hforks.trans hlater.toSameForks
  refine ⟨⟨hcalm, hin, ?_⟩, hforks₂, s₁.db.storedBlocks, old, new, ?_, hdown.storedBlocks, hrow.storedBlocks, rfl, ?_⟩
  · rw [hforks₂.alts]
    exact h.alts
  · have hheight := hdown.height
    rw [← hI₁.1.ok.built.length]
    omega
  · rw [hnew]
    simp only [hat]

theorem Lined.fork_settled (hfork : ForkedFor N s altChain splitHeight disconnected s₁) :
    settledHeight ≤ splitHeight := by
  obtain ⟨k, rfl, hversion⟩ := hfork.front
  exact (h.alts _ (alternativeAt_mem hversion)).settled

omit h
include hK hfits

/-- A main-chain block has no more work than the tip. -/
theorem main_work_le (hs : NodeOk N s) (hin : BlocksIn K s) {k : Nat} {sb : StoredBlock}
    (hsb : s.db.storedBlocks[k]? = some sb) : tipWork (s.db.workBefore (k + 1)) ≤ s.tipDifficulty := by
  have hlen := hs.built.length
  have hlt := (List.getElem?_eq_some_iff.mp hsb).1
  obtain ⟨n, hn⟩ : ∃ n, s.db.getChainHeight = n + 1 := ⟨s.db.getChainHeight - 1, by omega⟩
  obtain ⟨tip, htip⟩ : ∃ tip, s.db.storedBlocks[n]? = some tip := ⟨_, getElem?_eq_getElem (by omega)⟩
  rw [tipDifficulty_eq hs, hn]
  refine (main_lineage hK hs hin htip).grows hfits ?_ ?_
  · rw [Db.workBefore, Db.workBefore, reverse_suffix]
    exact (take_prefix_take_left (by omega)).map _
  · intro hnil
    have := congrArg List.length hnil
    rw [length_workBefore, length_nil] at this
    omega

variable {base old new : List StoredBlock}

theorem Replaced.old_work (h : Lined N K s)
    (hr : Replaced s altChain splitHeight disconnected s₂ base old new) (hsettled : settledHeight ≤ splitHeight) :
    ∀ d ∈ disconnected, K d ∧ settledHeight ≤ getBlockHeight d ∧
      ∃ l, Lineage N K d l ∧ tipWork l ≤ s.tipDifficulty := by
  intro d hd
  rw [hr.disconnected] at hd
  obtain ⟨sb, hsb, rfl⟩ := List.mem_map.mp hd
  obtain ⟨j, hj⟩ := getElem?_of_mem hsb
  have hget : s.db.storedBlocks[base.length + j]? = some sb := by
    rw [hr.before, getElem?_append_right (by omega), Nat.add_sub_cancel_left, hj]
  have hheight := (h.calm.ok.built.linked hget).index
  have hsplit := hr.split
  exact ⟨h.blocks.main sb (mem_of_getElem? hget), by omega, _, main_lineage hK h.calm.ok h.blocks hget,
    main_work_le hK hfits h.calm.ok h.blocks hget⟩

variable {id : Hash}

omit hfits

omit hK in
/-- The new tip is the last block of the branch. -/
theorem Replaced.tip (hr : Replaced s (altChain ++ [id]) splitHeight disconnected s₂ base old new) (hs₂ : NodeOk N s₂) :
    ∃ n sb, s₂.db.getChainHeight = n + 1 ∧ s₂.db.storedBlocks[n]? = some sb ∧ sb.block = (s.alternativeAt id).bl := by
  have hconnected := hr.connected
  rw [map_append, map_singleton] at hconnected
  obtain ⟨init, last, rfl⟩ : ∃ init last, new = init ++ [last] := by
    rcases eq_nil_or_concat new with rfl | ⟨init, last, rfl⟩
    · simp at hconnected
    · exact ⟨init, last, by simp⟩
  rw [map_append, map_singleton] at hconnected
  have hlast := (append_inj' hconnected rfl).2
  rw [singleton_inj] at hlast
  have hblocks := hr.after
  rw [← append_assoc] at hblocks
  refine ⟨(base ++ init).length, last, ?_, ?_, hlast⟩
  · rw [hs₂.built.length, hblocks, length_append]
    rfl
  · rw [hblocks]
    exact getElem?_concat_length

/-- With the block that completes the branch, the tip has the work of its entry. -/
theorem Replaced.tip_work (hr : Replaced s (altChain ++ [id]) splitHeight disconnected s₂ base old new)
    (hs₂ : Lined N K s₂) (hentry : LinedEntry N K (id, s.alternativeAt id)) :
    s₂.tipDifficulty = (s.alternativeAt id).cumulativeDifficulty := by
  obtain ⟨n, sb, hn, hsb, hblock⟩ := hr.tip hs₂.calm.ok
  obtain ⟨l, hl, -, hcum⟩ := hentry.lineage
  have hlineage := main_lineage hK hs₂.calm.ok hs₂.blocks hsb
  rw [hblock] at hlineage
  rw [tipDifficulty_eq hs₂.calm.ok, hn, hlineage.unique hK hl]
  exact hcum.symm

omit hK

/-- The entries of a branch that was just extended. -/
theorem alternativeAt_inserted (hinsert : s.insertAlternative id bei = some s') :
    s'.alternativeAt id = bei ∧ ∀ x ∈ s.alternativeChains.entries, x.1 ≠ id → s'.alternativeAt x.1 = x.2 := by
  obtain ⟨alts, halts, rfl⟩ := insertAlternative_some hinsert
  have hfind := MultiIndex.find_insert halts
  refine ⟨?_, ?_⟩
  · simp only [Node.alternativeAt, Node.findAlternative, hfind, if_true]
    rfl
  · intro x hx hne
    simp only [Node.alternativeAt, Node.findAlternative, hfind, if_neg hne, MultiIndex.find_eq_some.mpr ⟨hx, rfl⟩]
    rfl

include h in
/-- A branch that was accepted does fork off the main chain, with the right versions, so
switching to it is not refused. -/
theorem Lined.branch_ready (hnew : s.haveBlock (N.prims.getBlockHash b) = false)
    (hprev : b.previousBlockHash ≠ s.db.getTailId)
    (haccepted : Accepted N s b (N.prims.getBlockHash b) prevalidated br bei isACheckpoint)
    (hinsert : s.insertAlternative (N.prims.getBlockHash b) bei = some s₁) :
    s₁.versionsOk (br.altChain ++ [N.prims.getBlockHash b]) ∧
      ∃ splitHeight ∈ s₁.splitHeight (br.altChain ++ [N.prims.getBlockHash b]), splitHeight < s₁.db.getChainHeight := by
  obtain ⟨hself, hother⟩ := alternativeAt_inserted hinsert
  have hdb : s₁.db = s.db := by
    obtain ⟨alts, -, rfl⟩ := insertAlternative_some hinsert
    rfl
  have hfresh : ∀ x ∈ s.alternativeChains.entries, x.1 ≠ N.prims.getBlockHash b := by
    rw [Node.haveBlock, Bool.or_eq_false_iff] at hnew
    have hnone : s.alternativeChains.find (N.prims.getBlockHash b) = none := by
      simpa [Node.findAlternative] using hnew.2
    exact MultiIndex.find_eq_none.mp hnone
  obtain ⟨-, hbei, hheight, -⟩ := haccepted.entry
  have hversion : checkBlockVersion bei.bl = true := by
    rw [hbei]
    exact haccepted.version
  cases haccepted.branchOf with
  | @main k _ hk halts hbr _ =>
    rw [halts, nil_append]
    refine ⟨?_, bei.height, ?_, ?_⟩
    · intro j hj
      rw [mem_singleton.mp hj, hself]
      exact hversion
    · rw [Node.splitHeight, head?_cons, Option.map_some, hself]
      rfl
    · -- the parent is not the last block of the main chain
      obtain ⟨sb, hsb, hhash⟩ := h.calm.ok.built.hashHeight.mp hk
      have hlt := (List.getElem?_eq_some_iff.mp hsb).1
      have hlen := h.calm.ok.built.length
      have hlast : k + 1 ≠ s.db.getChainHeight := by
        intro hlast
        apply hprev
        rw [h.calm.ok.built.getTailId, ← hlast, Db.idBefore, h.calm.ok.built.getBlockIdByHeight hsb, hhash]
      rw [hdb, hbei]
      simp only
      omega
  | @stored walk x front hmem _ _ hfront _ halts _ _ hlower _ =>
    rw [halts]
    have hat : ∀ y ∈ walk, s₁.alternativeAt y.1 = y.2 := fun y hy => hother y (hmem y hy) (hfresh y (hmem y hy))
    refine ⟨?_, front.2.height, ?_, ?_⟩
    · intro j hj
      rcases mem_append.mp hj with hj | hj
      · obtain ⟨y, hy, rfl⟩ := List.mem_map.mp (mem_reverse.mp hj)
        rw [hat y hy]
        exact (h.alts y (hmem y hy)).version
      · rw [mem_singleton.mp hj, hself]
        exact hversion
    · rw [Node.splitHeight, head?_append, head?_reverse, getLast?_map, hfront, Option.map_some,
        Option.some_or, Option.map_some, hat front (mem_of_getLast? hfront)]
      rfl
    · rw [hdb]
      exact hlower

/-- What a switch to a branch with more work does: it fails and leaves the chain, or the
tip has the work of the branch. -/
theorem Chosen.switched (hnone : N.checkpoints = .none) (hK : CollisionFree N K) (hfits : WorkFits N K)
    (h : Chosen N K s) (hb : K b) (hsettled : settledHeight ≤ getBlockHeight b)
    (hnew : s.haveBlock (N.prims.getBlockHash b) = false) (hprev : b.previousBlockHash ≠ s.db.getTailId)
        (haccepted : Accepted N s b (N.prims.getBlockHash b) prevalidated br bei false)
    (hmore : s.tipDifficulty < bei.cumulativeDifficulty)
    (hinsert : s.insertAlternative (N.prims.getBlockHash b) bei = some s₁)
    (hswitch : switchToAlternativeBlockchain N fuel s₁ (br.altChain ++ [N.prims.getBlockHash b]) false =
      some (outcome, s')) :
    Chosen N K s' ∧ (outcome = .returned false ∧ s'.db = s.db ∨
      outcome = .returned true ∧ s.tipDifficulty < s'.tipDifficulty) := by
  have hinv := Calm.callInv N K
  obtain ⟨hlined₁, hentry, hdb₁, hmem₁⟩ := h.toLined.insert hK hb hsettled haccepted hinsert
  have hcases := switchWith_cases hswitch
  obtain ⟨⟨hcalm', hin'⟩, hreturned⟩ := hinv.switched (fun hs hb hcall => hinv.handled fuel hs hb hcall)
    ⟨hlined₁.calm, hlined₁.blocks⟩ hcases
  have hold : ∀ x ∈ s₁.alternativeChains.entries, x.1 ≠ N.prims.getBlockHash b → x ∈ s.alternativeChains.entries := by
    intro x hx hne
    rcases (hmem₁ x).mp hx with rfl | hx
    · exact absurd rfl hne
    · exact hx
  cases hcases with
  | refused hno =>
    obtain ⟨hversions, splitHeight, hsplit, hlower⟩ := h.toLined.branch_ready hnew hprev haccepted hinsert
    exact absurd hversions (hno splitHeight hsplit hlower)
  | connectThrew => exact absurd rfl hreturned
  | rollbackThrew => exact absurd rfl hreturned
  | handBackThrew => exact absurd rfl hreturned
  | discarded hdiscard => cases hdiscard
  | @rolledBack _ _ rest _ _ s₃ _ hfork hup hroll =>
    obtain ⟨hdb, -⟩ := (switchWith_cases hswitch).restored hlined₁.calm.ok hlined₁.calm.above
    refine ⟨h.fewer hcalm' hin' (hdb.trans hdb₁) ?_, .inl ⟨rfl, hdb.trans hdb₁⟩⟩
    -- the new block is among those that are erased
    obtain ⟨⟨t, ht⟩, hne⟩ := connect_rest hup
    have hlast : N.prims.getBlockHash b ∈ rest := by
      apply mem_of_getLast?
      rw [← getLast?_append_of_ne_nil t hne, ht, getLast?_concat]
    intro x hx
    obtain ⟨hx₃, hnot⟩ := ((eraseAlternatives_frame rest s₃).2.2.2 x).mp hx
    rw [(hfork.rolledBack_forks hup hroll hlined₁.calm.ok hlined₁.calm.above).alts] at hx₃
    exact hold x hx₃ fun he => hnot (he ▸ hlast)
  | @handedBack _ _ _ s₂ s₃ _ _ hfork hup hback =>
    obtain ⟨hlined₂, hforks₂, base, old, new, hr⟩ := hlined₁.connected hfork hup
    -- the tip is the new block, with the work of its lineage
    have hself := (alternativeAt_inserted hinsert).1
    have htip : s₂.tipDifficulty = bei.cumulativeDifficulty := by
      rw [hr.tip_work hK hlined₂ (by rw [hself]; exact hentry), hself]
    have hgain : s.tipDifficulty < s₂.tipDifficulty := by rw [htip]; exact hmore
    have hchosen₂ : Chosen N K s₂ := by
      refine ⟨hlined₂, ?_⟩
      intro x hx
      rw [hforks₂.alts] at hx
      rcases (hmem₁ x).mp hx with rfl | hx
      · rw [htip]
        exact UInt64.le_refl _
      · exact UInt64.le_trans (h.heaviest x hx) (UInt64.le_of_lt hgain)
    obtain ⟨hchosen₃, hdb₃⟩ := Chosen.handBack hnone hK hchosen₂ (by
      intro d hd
      obtain ⟨hd, hheight, l, hl, hle⟩ := hr.old_work hK hfits hlined₁ (hlined₁.fork_settled hfork) d hd
      rw [tipDifficulty_congr hdb₁] at hle
      exact ⟨hd, hheight, l, hl, UInt64.le_trans hle (UInt64.le_of_lt hgain)⟩) hback
    obtain ⟨hdb₄, -, -, hmem₄⟩ := eraseAlternatives_frame (br.altChain ++ [N.prims.getBlockHash b]) s₃
    refine ⟨hchosen₃.fewer hcalm' hin' hdb₄ fun x hx => ((hmem₄ x).mp hx).1, .inr ⟨rfl, ?_⟩⟩
    exact lt_of_lt_of_eq hgain (tipDifficulty_congr (s := s₂) (hdb₄.trans hdb₃)).symm

/-! ## Runs -/

/-- Offered blocks are in `K`, those that do not extend the tip are settled, and no
transaction of the pool repeats a tag. The operator asks for nothing. -/
def forkChoiceGuards (N : NodeEnv) (K : Block → Prop) : Guards where
  genesis := K
  offer s b := K b ∧ DistinctTags N.P s.pool.view ∧
    (b.previousBlockHash ≠ s.db.getTailId → settledHeight ≤ getBlockHeight b)
  rollback _ _ := False
  resync _ := False

/-- A block on top of the tip adds to its work. -/
theorem Chosen.pushed (hK : CollisionFree N K) (hfits : WorkFits N K) (h : Chosen N K s) (hb : K b)
    (hpre : ∀ p ∈ prevalidated, N.prims.prevalidateBlockProofOfWork b = some p) :
    Chosen N K (s.pushBlock N b (N.prims.getBlockHash b) prevalidated).2 ∧
      s.tipDifficulty ≤ (s.pushBlock N b (N.prims.getBlockHash b) prevalidated).2.tipDifficulty := by
  have hpos := h.calm.ok.built.pos
  obtain ⟨⟨hcalm, hin⟩, -⟩ := (Calm.callInv N K).push ⟨h.calm, h.blocks⟩ hb hpre
  obtain ⟨hlater, hspec⟩ := pushBlock_spec h.calm.ok.pool (by omega) hpre
  generalize s.pushBlock N b (N.prims.getBlockHash b) prevalidated = r at hcalm hin hlater hspec
  obtain ⟨outcome, s₁⟩ := r
  have hle : s.tipDifficulty ≤ s₁.tipDifficulty := by
    cases hspec with
    | @pushed _ sb _ hm =>
      obtain ⟨n, hn⟩ : ∃ n, s.db.getChainHeight = n + 1 := ⟨s.db.getChainHeight - 1, by omega⟩
      obtain ⟨tip, htip⟩ : ∃ tip, s₁.db.storedBlocks[n]? = some tip := by
        have := hcalm.ok.built.length
        have := hm.height
        exact ⟨_, getElem?_eq_getElem (by simp only at *; omega)⟩
      have hwork := main_work_le hK hfits hcalm.ok hin htip
      rw [hm.pushed.written, workBefore_writeStored (by omega)] at hwork
      rw [tipDifficulty_eq h.calm.ok, hn]
      exact hwork
    | refused hdb =>
      rw [tipDifficulty_congr hdb]
      exact UInt64.le_refl _
    | threw hdb =>
      rw [tipDifficulty_congr hdb]
      exact UInt64.le_refl _
  refine ⟨⟨⟨hcalm, hin, ?_⟩, ?_⟩, hle⟩
  · rw [hlater.alts]
    exact h.alts
  · intro x hx
    rw [hlater.alts] at hx
    exact UInt64.le_trans (h.heaviest x hx) hle

include hnone

/-- A block that is not named by a checkpoint is stored or switched to for its work. -/
theorem Accepted.no_checkpoint (h : Accepted N s b id prevalidated br bei isACheckpoint) : isACheckpoint = false := by
  have hcheck := h.entry.2.2.2
  rw [hnone] at hcheck
  exact (congrArg Prod.snd hcheck).symm

include hK hfits

theorem Chosen.offered
    (h : Chosen N K s) (hb : K b) (hsettled : b.previousBlockHash ≠ s.db.getTailId → settledHeight ≤ getBlockHeight b)
    (hcall : Offered N s b outcome s') : Chosen N K s' ∧ s.tipDifficulty ≤ s'.tipDifficulty := by
  cases hcall with
  | refused => exact ⟨h, UInt64.le_refl _⟩
  | pushed _ _ hpre => exact h.pushed hK hfits hb hpre
  | handled fuel hnew hprev _ hcall =>
    cases fuel with
    | zero => cases hcall
    | succ fuel =>
      rw [handleAlternativeBlock] at hcall
      cases handleWith_cases hcall with
      | unchanged => exact ⟨h, UInt64.le_refl _⟩
      | recorded =>
        obtain ⟨hcalm, hin⟩ := (Calm.callInv N K).record ⟨h.calm, h.blocks⟩ hb
        exact ⟨h.fewer hcalm hin rfl fun _ hx => hx, UInt64.le_refl _⟩
      | stored haccepted hless hinsert =>
        obtain ⟨hlined, -, hdb, hmem⟩ := h.toLined.insert hK hb (hsettled hprev) haccepted hinsert
        rw [tipDifficulty_congr hdb]
        refine ⟨⟨hlined, ?_⟩, UInt64.le_refl _⟩
        intro x hx
        rw [tipDifficulty_congr hdb]
        rcases (hmem x).mp hx with rfl | hx
        · exact UInt64.not_lt.mp hless
        · exact h.heaviest x hx
      | switched haccepted hmore hinsert hswitch =>
        cases haccepted.no_checkpoint hnone
        have hmore := hmore.resolve_left (by simp)
        obtain ⟨hchosen, hend⟩ :=
          h.switched hnone hK hfits hb (hsettled hprev) hnew hprev haccepted hmore hinsert hswitch
        rcases hend with ⟨-, hdb⟩ | ⟨-, hgain⟩
        · exact ⟨hchosen, by rw [tipDifficulty_congr hdb]; exact UInt64.le_refl _⟩
        · exact ⟨hchosen, UInt64.le_of_lt hgain⟩

/-- What `Chosen` asks for besides the pool, in every state of a run. -/
theorem work_reachable (h : (guardedLts N (forkChoiceGuards N K)).Reachable s) :
    BlocksIn K s ∧ (∀ x ∈ s.alternativeChains.entries, LinedEntry N K x) ∧
      ∀ x ∈ s.alternativeChains.entries, x.2.cumulativeDifficulty ≤ s.tipDifficulty := by
  induction h with
  | @init s hinit =>
    obtain ⟨hin, hforks⟩ := guarded_init hinit
    have hempty : ∀ x, x ∉ s.alternativeChains.entries := by
      intro x hx
      rw [hforks.alts] at hx
      cases hx
    exact ⟨hin, fun x hx => absurd hx (hempty x), fun x hx => absurd hx (hempty x)⟩
  | @step s s' hreach hstep ih =>
    cases hstep with
    | offer hguard hoffer =>
      obtain ⟨hb, hdistinct, hsettled⟩ := hguard
      have hs : Chosen N K s := ⟨⟨.of_reachable (guarded_node hreach) hdistinct, ih.1, ih.2.1⟩, ih.2.2⟩
      obtain ⟨hs', -⟩ := hs.offered hnone hK hfits hb hsettled hoffer.cases
      exact ⟨hs'.blocks, hs'.alts, hs'.heaviest⟩
    | pool hcall =>
      rw [hcall.step.alts, tipDifficulty_congr hcall.step.db]
      exact ⟨ih.1.pool hcall, ih.2⟩
    | rollback hguard => exact absurd hguard id
    | resync hguard => exact absurd hguard id

omit hnone hK hfits

/-- A call that returned true and moved the chain, with a block that does not extend the
tip, reported a switch. -/
theorem Offered.reportsSwitch (h : Offered N s b (.returned true) s')
    (hprev : b.previousBlockHash ≠ s.db.getTailId) (hmoved : s'.db ≠ s.db) : ReportsSwitch N s b s' := by
  generalize ho : Outcome.returned true = outcome at h
  cases h with
  | refused => cases ho
  | pushed _ htail => exact absurd htail hprev
  | handled fuel hnew _ _ hcall =>
    cases fuel with
    | zero => cases hcall
    | succ fuel =>
      rw [handleAlternativeBlock] at hcall
      cases handleWith_cases hcall with
      | unchanged => exact absurd rfl hmoved
      | recorded => exact absurd rfl hmoved
      | stored _ _ hinsert =>
        obtain ⟨alts, -, rfl⟩ := insertAlternative_some hinsert
        exact absurd rfl hmoved
      | switched haccepted hmore hinsert hswitch =>
        subst ho
        exact .mk fuel hnew hprev haccepted hmore hinsert hswitch

/-- Genesis and one block on it. -/
def flatPair : List Block := [flatGenesis, flatNext flatGenesis 1 1090 []]

theorem flatPair_collisionFree : CollisionFree flatNode (· ∈ flatPair) where
  injective := by
    have h : ∀ b ∈ flatPair, ∀ b' ∈ flatPair, flatId b = flatId b' → b = b' := by decide +kernel
    exact fun {b b'} hb hb' => h b hb b' hb'
  nonnull := by
    have h : ∀ b ∈ flatPair, flatId b ≠ nullHash := by decide +kernel
    exact fun {b} hb => h b hb

theorem flatPair_workFits : WorkFits flatNode (· ∈ flatPair) := by
  have hroot : ∀ b ∈ flatPair, b.previousBlockHash = nullHash → b = flatGenesis := by decide +kernel
  have hchild : ∀ b ∈ flatPair, ∀ p ∈ flatPair, b.previousBlockHash = flatId p →
      p = flatGenesis ∧ p ≠ flatNext flatGenesis 1 1090 [] ∧ b = flatNext flatGenesis 1 1090 [] := by
    decide +kernel
  -- the two lineages there are
  have hlineage : ∀ b l, Lineage flatNode (· ∈ flatPair) b l → b = flatGenesis ∧ l = [(1000, 1)] ∨
      b = flatNext flatGenesis 1 1090 [] ∧ l = [(1090, 2), (1000, 1)] := by
    intro b l h
    induction h with
    | genesis hb hnull =>
      cases hroot _ hb hnull
      exact .inl ⟨rfl, by decide +kernel⟩
    | child hb hp hprev ih =>
      obtain ⟨hpg, hpn, rfl⟩ := hchild _ hb _ hp.known hprev
      obtain ⟨-, rfl⟩ | ⟨hpn', -⟩ := ih
      · exact .inr ⟨rfl, by decide +kernel⟩
      · exact absurd hpn' hpn
  intro b l hl
  rcases hlineage b l hl with ⟨-, rfl⟩ | ⟨-, rfl⟩
  · decide +kernel
  · decide +kernel

example : (flatNext flatGenesis 1 1090 []).previousBlockHash = flatId flatGenesis := by decide +kernel

end Discrete.L4
