import Discrete.L4Node.Moves

/-!
# Reorganisations that fail

`switch_to_alternative_blockchain` pops the main chain down to the fork, pushes the
alternative blocks and, when one of them fails, pops those that went through and
pushes the old blocks again.

* `MovesAll`: a row of moves. Popping as many blocks as a row has leads back to where
  the row began (`MovesAll.unique`), and the row can be made again
  (`reconnect_again`).
* `rollback_restores`: so the rollback of a failed switch always goes through, and the
  chain and the pool hold what they held before.
-/
namespace Discrete.L4
open List L1 L2 L3

variable {N : NodeEnv}

/-! ## Rows of moves -/

/-- The blocks `sbs` go onto the chain one after the other. -/
inductive MovesAll (N : NodeEnv) (clock : Nat) (db : Db) (view : View) : List StoredBlock → Db → View → Prop where
  | nil : MovesAll N clock db view [] db view
  | snoc {sbs : List StoredBlock} {sb : StoredBlock} {db₁ db₂ : Db} {view₁ view₂ : View} :
      MovesAll N clock db view sbs db₁ view₁ → Moves N clock db₁ view₁ sb db₂ view₂ →
      MovesAll N clock db view (sbs ++ [sb]) db₂ view₂

section MovesAll
variable {clock : Nat} {db db' : Db} {view view' : View} {sbs : List StoredBlock}

theorem MovesAll.mono {clock' : Nat} (hle : clock ≤ clock') (h : MovesAll N clock db view sbs db' view') :
    MovesAll N clock' db view sbs db' view' := by
  induction h with
  | nil => exact .nil
  | snoc _ hm ih => exact .snoc ih (hm.mono hle)

theorem MovesAll.height (h : MovesAll N clock db view sbs db' view') :
    db'.getChainHeight = db.getChainHeight + sbs.length := by
  induction h with
  | nil => rfl
  | snoc _ hm ih =>
    rw [hm.height, ih, length_append]
    rfl

theorem MovesAll.ok (hs : ChainOk N clock db view) (h : MovesAll N clock db view sbs db' view') :
    ChainOk N clock db' view' := by
  induction h with
  | nil => exact hs
  | snoc _ hm ih => exact ih.push hm

theorem MovesAll.storedBlocks (h : MovesAll N clock db view sbs db' view') :
    db'.storedBlocks = db.storedBlocks ++ sbs := by
  induction h with
  | nil => rw [append_nil]
  | snoc _ hm ih => rw [hm.storedBlocks, ih, append_assoc]

/-- A row of a given length leads back to one place. -/
theorem MovesAll.unique {db₀ : Db} {view₀ : View} {sbs₀ : List StoredBlock} (hs : ChainOk N clock db view)
    (hs₀ : ChainOk N clock db₀ view₀) (h : MovesAll N clock db view sbs db' view')
    (h₀ : MovesAll N clock db₀ view₀ sbs₀ db' view') (hlen : sbs₀.length = sbs.length) : db₀ = db ∧ view₀ = view := by
  induction h generalizing sbs₀ with
  | nil =>
    cases h₀ with
    | nil => exact ⟨rfl, rfl⟩
    | snoc => simp at hlen
  | snoc hrow hm ih =>
    cases h₀ with
    | nil => simp at hlen
    | snoc hrow₀ hm₀ =>
      obtain ⟨rfl, rfl, -⟩ := hm.unique (hrow.ok hs).built.wf (hrow₀.ok hs₀).built.wf hm₀
      exact ih hrow₀ (by simpa using hlen)

/-- A block of the main chain states its own height. -/
theorem Moves.getBlockHeight {sb : StoredBlock} (h : Moves N clock db view sb db' view') :
    getBlockHeight sb.block = db.getChainHeight := by
  obtain ⟨now, -, alt, pre, -, hp⟩ := h.pushed.pushed
  obtain ⟨scan, difficulty, reward, emission, hok, -⟩ := pushBlock_ok.mp hp
  exact (MinerTx.of_true hok.miner).getBlockHeight

theorem MovesAll.getBlockHeight (h : MovesAll N clock db view sbs db' view') {sb : StoredBlock} (hsb : sb ∈ sbs) :
    db.getChainHeight ≤ L3.getBlockHeight sb.block := by
  induction h with
  | nil => cases hsb
  | snoc hrow hm ih =>
    rcases mem_append.mp hsb with hsb | hsb
    · exact ih hsb
    · rw [mem_singleton.mp hsb, hm.getBlockHeight, hrow.height]
      exact Nat.le_add_right _ _

end MovesAll

/-! ## Down to the fork -/

/-- Popping `n` blocks undoes a row of `n` moves, and `disconnect` collects its blocks. -/
theorem disconnect_spec : ∀ (n : Nat) {s : Node} (acc : List Block), NodeOk N s → n < s.db.getChainHeight →
    ∃ sbs s', Node.disconnect N n s acc = (sbs.map StoredBlock.block ++ acc, s') ∧ (Node.popBlock N)^[n] s = s' ∧
      sbs.length = n ∧ Later s s' ∧ NodeOk N s' ∧ MovesAll N (N.clock s'.reads) s'.db s'.pool.view sbs s.db s.pool.view
  | 0, s, acc, hs, _ => ⟨[], s, rfl, rfl, rfl, .refl s, hs, .nil⟩
  | n + 1, s, acc, hs, hn => by
    obtain ⟨hlater, hpop, sb, hm, hdata⟩ := popBlock_spec hs (by omega)
    have hheight := hm.height
    obtain ⟨sbs, s', heq, hiter, hlen, hlater', hok, hrow⟩ :=
      disconnect_spec n (s := s.popBlock N) (sb.block :: acc) hpop (by omega)
    have hall := hlater.trans hlater'
    refine ⟨sbs ++ [sb], s', ?_, ?_, by simp [hlen], hall, hok, .snoc hrow (hm.mono (N.clock_mono hall.reads))⟩
    · rw [Node.disconnect, hdata]
      simpa using heq
    · rw [Function.iterate_succ_apply]
      exact hiter

/-! ## Up again -/

/-- A row of moves onto `db` is extended by the blocks that connect, and a block that
fails changes nothing. -/
theorem connect_failed {db : Db} {view : View} {rest : List Hash} {s' : Node} :
    ∀ {l : List Hash} {s : Node} {sbs : List StoredBlock}, NodeOk N s →
      MovesAll N (N.clock s.reads) db view sbs s.db s.pool.view → s.connect N l = (.failed rest, s') →
      Later s s' ∧ NodeOk N s' ∧ ∃ sbs', MovesAll N (N.clock s'.reads) db view sbs' s'.db s'.pool.view
  | [], s, sbs, _, _, h => by simp [Node.connect] at h
  | k :: l, s, sbs, hs, hrow, h => by
    have hpos := hs.built.pos
    have hnone : ∀ p ∈ (none : Option Hash),
        N.prims.prevalidateBlockProofOfWork (s.alternativeAt k).bl = some p := by simp
    obtain ⟨hlater, hspec⟩ := pushBlock_spec hs.pool (by omega) hnone
    rw [Node.connect] at h
    generalize s.pushBlock N (s.alternativeAt k).bl (N.prims.getBlockHash (s.alternativeAt k).bl) none = r
      at hlater hspec h
    obtain ⟨outcome, s₁⟩ := r
    have hmono := N.clock_mono hlater.reads
    cases hspec with
    | pushed _ hm =>
      obtain ⟨hlater', hok, hall⟩ := connect_failed (ChainOk.push (hs.mono hmono) hm) (.snoc (hrow.mono hmono) hm) h
      exact ⟨hlater.trans hlater', hok, hall⟩
    | refused hdb hview =>
      simp only [Prod.mk.injEq] at h
      obtain ⟨-, rfl⟩ := h
      simp only at hdb hview
      rw [NodeOk, hdb, hview]
      exact ⟨hlater, hs.mono hmono, sbs, hrow.mono hmono⟩
    | threw => simp at h

/-- Blocks that all connect extend a row of moves by one for each hash. -/
theorem connect_all {db : Db} {view : View} {s' : Node} :
    ∀ {l : List Hash} {s : Node} {sbs : List StoredBlock}, NodeOk N s →
      MovesAll N (N.clock s.reads) db view sbs s.db s.pool.view → s.connect N l = (.all, s') →
      Later s s' ∧ NodeOk N s' ∧ ∃ sbs', sbs'.map StoredBlock.block = l.map (fun k => (s.alternativeAt k).bl) ∧
        MovesAll N (N.clock s'.reads) db view (sbs ++ sbs') s'.db s'.pool.view
  | [], s, sbs, hs, hrow, h => by
    cases h
    exact ⟨.refl _, hs, [], rfl, by rw [append_nil]; exact hrow⟩
  | k :: l, s, sbs, hs, hrow, h => by
    have hpos := hs.built.pos
    have hnone : ∀ p ∈ (none : Option Hash),
        N.prims.prevalidateBlockProofOfWork (s.alternativeAt k).bl = some p := by simp
    obtain ⟨hlater, hspec⟩ := pushBlock_spec hs.pool (by omega) hnone
    rw [Node.connect] at h
    generalize s.pushBlock N (s.alternativeAt k).bl (N.prims.getBlockHash (s.alternativeAt k).bl) none = r
      at hlater hspec h
    obtain ⟨outcome, s₁⟩ := r
    have hmono := N.clock_mono hlater.reads
    cases hspec with
    | @pushed _ sb hblock hm =>
      obtain ⟨hlater', hok, sbs', hblocks, hall⟩ :=
        connect_all (ChainOk.push (hs.mono hmono) hm) (.snoc (hrow.mono hmono) hm) h
      refine ⟨hlater.trans hlater', hok, sb :: sbs', ?_, by simpa using hall⟩
      have hat : ∀ j, s₁.alternativeAt j = s.alternativeAt j := by
        intro j
        rw [Node.alternativeAt, Node.findAlternative, hlater.alts]
        rfl
      simp only [hat] at hblocks
      rw [map_cons, map_cons, hblock, hblocks]
    | refused => simp at h
    | threw => simp at h

/-- The hashes that are left start at the one that failed. -/
theorem connect_rest {rest : List Hash} {s' : Node} : ∀ {l : List Hash} {s : Node},
    s.connect N l = (.failed rest, s') → rest <:+ l ∧ rest ≠ []
  | [], s, h => by simp [Node.connect] at h
  | k :: l, s, h => by
    rw [Node.connect] at h
    split at h
    · obtain ⟨hsuffix, hne⟩ := connect_rest h
      exact ⟨hsuffix.trans (suffix_cons k l), hne⟩
    · cases h
      exact ⟨suffix_refl _, by simp⟩
    · cases h

theorem reconnect_append : ∀ (l l' : List Block) (s : Node), s.reconnect N (l ++ l') =
    match s.reconnect N l with
    | (.returned true, s₁) => s₁.reconnect N l'
    | r => r
  | [], l', s => rfl
  | b :: l, l', s => by
    rw [cons_append, Node.reconnect, Node.reconnect]
    split
    · exact reconnect_append l l' _
    · rfl
    · rfl

/-- A row that was undone can be made again. -/
theorem reconnect_again {clock : Nat} {db db' : Db} {view view' : View} {sbs : List StoredBlock}
    (hs : ChainOk N clock db view) (h : MovesAll N clock db view sbs db' view') {s : Node} (hdb : s.db = db)
    (hview : s.pool.view = view) (hclock : clock ≤ N.clock s.reads) :
    ∃ s', s.reconnect N (sbs.map StoredBlock.block) = (.returned true, s') ∧ Later s s' ∧ s'.db = db' ∧
      s'.pool.view = view' := by
  induction h with
  | nil => exact ⟨s, rfl, .refl s, hdb, hview⟩
  | snoc hrow hm ih =>
    obtain ⟨s₁, heq, hlater, hdb₁, hview₁⟩ := ih
    have hok := hrow.ok hs
    obtain ⟨s₂, hpush, hlater₂, hdb₂, hview₂⟩ := pushBlock_again hm hok.built.tail hok.pool hdb₁ hview₁
      (le_trans hclock (N.clock_mono hlater.reads))
    refine ⟨s₂, ?_, hlater.trans hlater₂, hdb₂, hview₂⟩
    rw [map_append, reconnect_append, heq]
    simp [Node.reconnect, hpush]

/-! ## The switch -/

/-- The rollback of a failed switch goes through: all blocks that were popped are on the
chain again, and nothing else. -/
theorem rollback_restores {s s₁ s₂ : Node} {splitHeight : Nat} {disconnected : List Block} {altChain rest : List Hash}
    (hs : NodeOk N s) (hpos : 0 < splitHeight) (hsplit : splitHeight < s.db.getChainHeight)
    (hdown : Node.disconnect N (s.db.getChainHeight - splitHeight) s [] = (disconnected, s₁))
    (hup : s₁.connect N altChain = (.failed rest, s₂)) :
    ∃ s₃, s₂.rollbackBlockchainSwitching N disconnected splitHeight = (.returned true, s₃) ∧ Later s s₃ ∧
      s₃.db = s.db ∧ s₃.pool.view = s.pool.view := by
  obtain ⟨sbs, s', heq, -, hlen, hlater, hok, hrow⟩ :=
    disconnect_spec (s.db.getChainHeight - splitHeight) [] hs (by omega)
  rw [append_nil, hdown, Prod.mk.injEq] at heq
  obtain ⟨rfl, rfl⟩ := heq
  obtain ⟨hlater₂, hok₂, sbs₂, hrow₂⟩ := connect_failed hok .nil hup
  have hheight := hrow.height
  have hheight₂ := hrow₂.height
  -- the rollback pops what was connected, which leads back to the fork
  obtain ⟨sbs₃, s₃, -, hiter, hlen₃, hlater₃, hok₃, hrow₃⟩ :=
    disconnect_spec (s₂.db.getChainHeight - splitHeight) [] hok₂ (by omega)
  have hmono := N.clock_mono hlater₃.reads
  have hmono' := N.clock_mono (hlater₂.trans hlater₃).reads
  obtain ⟨hdb, hview⟩ := (hrow₂.mono hmono).unique (hok.mono hmono') hok₃ hrow₃ (by omega)
  obtain ⟨s₄, hre, hlater₄, hdb₄, hview₄⟩ := reconnect_again hok hrow hdb hview hmono'
  refine ⟨s₄, ?_, ((hlater.trans hlater₂).trans hlater₃).trans hlater₄, hdb₄, hview₄⟩
  rw [Node.rollbackBlockchainSwitching, hiter]
  exact hre

/-- Every stored alternative block has a height of at least `floor`. -/
def AltAbove (floor : Nat) (s : Node) : Prop := ∀ x ∈ s.alternativeChains.entries, floor ≤ x.2.height

/-- A hash that is not stored stands for an entry of version 0, which no height has. -/
theorem AltAbove.at {floor : Nat} {s : Node} (h : AltAbove floor s) {k : Hash}
    (hversion : checkBlockVersion (s.alternativeAt k).bl = true) : floor ≤ (s.alternativeAt k).height := by
  unfold Node.alternativeAt Node.findAlternative at hversion ⊢
  cases hf : s.alternativeChains.find k with
  | some x => exact h x (MultiIndex.find_eq_some.mp hf).1
  | none =>
    rw [hf] at hversion
    exact absurd hversion (by decide)

/-- The main chain has been popped down to the first block of a stored branch. -/
structure ForkedAt (N : NodeEnv) (s : Node) (splitHeight : Nat) (disconnected : List Block) (s₁ : Node) : Prop where
  front : ∃ k, splitHeight = (s.alternativeAt k).height ∧ checkBlockVersion (s.alternativeAt k).bl = true
  lower : splitHeight < s.db.getChainHeight
  down : Node.disconnect N (s.db.getChainHeight - splitHeight) s [] = (disconnected, s₁)

/-- The height a branch of stored blocks forks at. -/
def Node.splitHeight (s : Node) (altChain : List Hash) : Option Nat :=
  altChain.head?.map fun front => (s.alternativeAt front).height

/-- All blocks of the branch have the version of their height. -/
def Node.versionsOk (s : Node) (altChain : List Hash) : Prop :=
  ∀ k ∈ altChain, checkBlockVersion (s.alternativeAt k).bl = true

/-- The main chain has been popped down to where `altChain` forks. -/
structure ForkedFor (N : NodeEnv) (s : Node) (altChain : List Hash) (splitHeight : Nat) (disconnected : List Block)
    (s₁ : Node) : Prop extends ForkedAt N s splitHeight disconnected s₁ where
  split : s.splitHeight altChain = some splitHeight
  versions : s.versionsOk altChain

/-- The ways a switch can end. -/
inductive Switched (N : NodeEnv) (handle : Node → Block → Option (Outcome × Node)) (s : Node) (altChain : List Hash)
    (discard : Bool) : Outcome → Node → Prop where
  | refused : (∀ splitHeight ∈ s.splitHeight altChain, splitHeight < s.db.getChainHeight → ¬ s.versionsOk altChain) →
      Switched N handle s altChain discard (.returned false) s
  | connectThrew {splitHeight : Nat} {disconnected : List Block} {s₁ s₂ : Node} :
      ForkedFor N s altChain splitHeight disconnected s₁ → s₁.connect N altChain = (.threw, s₂) →
      Switched N handle s altChain discard .threw s₂
  | rollbackThrew {splitHeight : Nat} {disconnected : List Block} {rest : List Hash} {s₁ s₂ s₃ : Node} :
      ForkedFor N s altChain splitHeight disconnected s₁ → s₁.connect N altChain = (.failed rest, s₂) →
      s₂.rollbackBlockchainSwitching N disconnected splitHeight = (.threw, s₃) →
      Switched N handle s altChain discard .threw s₃
  | rolledBack {splitHeight : Nat} {disconnected : List Block} {rest : List Hash} {s₁ s₂ s₃ : Node} {result : Bool} :
      ForkedFor N s altChain splitHeight disconnected s₁ → s₁.connect N altChain = (.failed rest, s₂) →
      s₂.rollbackBlockchainSwitching N disconnected splitHeight = (.returned result, s₃) →
      Switched N handle s altChain discard (.returned false) (s₃.eraseAlternatives rest)
  | discarded {splitHeight : Nat} {disconnected : List Block} {s₁ s₂ : Node} : discard = true →
      ForkedFor N s altChain splitHeight disconnected s₁ → s₁.connect N altChain = (.all, s₂) →
      Switched N handle s altChain discard (.returned true)
        { s₂.eraseAlternatives altChain with finalityForkState := .clear }
  | handBackThrew {splitHeight : Nat} {disconnected : List Block} {s₁ s₂ s₃ : Node} : discard = false →
      ForkedFor N s altChain splitHeight disconnected s₁ → s₁.connect N altChain = (.all, s₂) →
      handBack handle s₂ disconnected = some (.threw, s₃) → Switched N handle s altChain discard .threw s₃
  | handedBack {splitHeight : Nat} {disconnected : List Block} {s₁ s₂ s₃ : Node} {result : Bool} : discard = false →
      ForkedFor N s altChain splitHeight disconnected s₁ → s₁.connect N altChain = (.all, s₂) →
      handBack handle s₂ disconnected = some (.returned result, s₃) →
      Switched N handle s altChain discard (.returned true)
        { s₃.eraseAlternatives altChain with finalityForkState := .clear }

theorem switchWith_cases {handle : Node → Block → Option (Outcome × Node)} {s s' : Node} {altChain : List Hash}
    {discard : Bool} {outcome : Outcome} (h : Node.switchWith N handle s altChain discard = some (outcome, s')) :
    Switched N handle s altChain discard outcome s' := by
  unfold Node.switchWith at h
  split at h
  · cases h
    exact .refused (by simp [Node.splitHeight])
  rename_i front tail
  dsimp only at h
  split at h
  · rename_i hsplit
    cases h
    refine .refused ?_
    intro splitHeight hmem hlt
    rw [Node.splitHeight, head?_cons, Option.map_some, Option.mem_some] at hmem
    omega
  rename_i hsplit
  split at h
  · rename_i hversions
    cases h
    refine .refused fun _ _ _ hok => hversions ?_
    exact List.all_eq_true.mpr hok
  rename_i hversions
  simp only [not_not, List.all_eq_true] at hversions hsplit
  have hfork : ForkedFor N s (front :: tail) (s.alternativeAt front).height _ _ :=
    ⟨⟨⟨front, rfl, hversions front (by simp)⟩, hsplit, rfl⟩, rfl, hversions⟩
  split at h
  · rename_i s₂ hup
    cases h
    exact .connectThrew hfork hup
  · rename_i rest s₂ hup
    split at h
    · rename_i s₃ hroll
      cases h
      exact .rollbackThrew hfork hup hroll
    · rename_i result s₃ hroll
      cases h
      exact .rolledBack hfork hup hroll
  · rename_i s₂ hup
    cases discard with
    | true =>
      cases h
      exact .discarded rfl hfork hup
    | false =>
      simp only [Bool.false_eq_true, if_false] at h
      split at h
      · cases h
      · rename_i s₃ hback
        cases h
        exact .handBackThrew rfl hfork hup hback
      · rename_i result s₃ hback
        cases h
        exact .handedBack rfl hfork hup hback

/-- Erasing touches nothing but the alternative blocks and their index. -/
theorem eraseAlternatives_frame : ∀ (hashes : List Hash) (s : Node),
    (s.eraseAlternatives hashes).db = s.db ∧ (s.eraseAlternatives hashes).pool = s.pool ∧
      (s.eraseAlternatives hashes).reads = s.reads ∧ ∀ x, x ∈ (s.eraseAlternatives hashes).alternativeChains.entries ↔
        x ∈ s.alternativeChains.entries ∧ x.1 ∉ hashes
  | [], s => ⟨rfl, rfl, rfl, by simp [Node.eraseAlternatives]⟩
  | h :: hashes, s => by
    obtain ⟨hdb, hpool, hreads, hmem⟩ := eraseAlternatives_frame hashes (s.eraseAlternative h)
    refine ⟨hdb, hpool, hreads, fun x => ?_⟩
    rw [Node.eraseAlternatives, foldl_cons]
    rw [Node.eraseAlternatives] at hmem
    rw [hmem, Node.eraseAlternative, MultiIndex.mem_erase, mem_cons, not_or, and_assoc]

/-- A switch that returns false leaves chain and pool as they were. -/
theorem Switched.restored {handle : Node → Block → Option (Outcome × Node)} {s s' : Node} {altChain : List Hash}
    {discard : Bool} (h : Switched N handle s altChain discard (.returned false) s') (hs : NodeOk N s) (habove : AltAbove 1 s) :
    s'.db = s.db ∧ s'.pool.view = s.pool.view := by
  cases h with
  | refused => exact ⟨rfl, rfl⟩
  | rolledBack hfork hup hroll =>
    obtain ⟨k, rfl, hversion⟩ := hfork.front
    obtain ⟨s₃, hroll', -, hdb, hview⟩ := rollback_restores hs (habove.at hversion) hfork.lower hfork.down hup
    rw [hroll', Prod.mk.injEq] at hroll
    obtain ⟨-, rfl⟩ := hroll
    obtain ⟨hdb', hpool', -⟩ := eraseAlternatives_frame _ s₃
    exact ⟨hdb'.trans hdb, by rw [hpool', hview]⟩

end Discrete.L4
