import Discrete.L4Node.Reorg

/-!
# What every call preserves

A call that takes a block is a trail of small steps on chain and pool: a block moves
onto the chain, a move is undone, or the pool loses transactions (`Micro`). A trail
comes with a height below which it pops nothing.

* `BlockCall.beats`: `addNewBlock` is a trail, however deep its reorganisations nest.
* `node_inv`: between calls, the chain is built from the blocks it stores and the pool
  holds none of their transactions.
* `node_refines_ledger`: the chain of a reachable node is a reachable store, so what
  holds of every store holds of every node.
* `failed_switch_restores`: a reorganisation that fails changes nothing.
-/
namespace Discrete.L4
open L1 L2 L3

/-! ## Trails -/

/-- One thing that happens within a call. A pop leaves at least `floor` blocks. -/
inductive Micro (N : NodeEnv) (floor : Nat) : Node → Node → Prop where
  | push {s s' : Node} {sb : StoredBlock} : Onward s s' →
      Moves N (N.clock s'.reads) s.db s.pool.view sb s'.db s'.pool.view → Micro N floor s s'
  | pop {s s' : Node} {sb : StoredBlock} : Onward s s' → floor < s.db.getChainHeight → NodeOk N s' →
      Moves N (N.clock s.reads) s'.db s'.pool.view sb s.db s.pool.view → Micro N floor s s'
  | still {s s' : Node} : Onward s s' → s'.db = s.db → Sub s'.pool.view s.pool.view → Micro N floor s s'

abbrev Trail (N : NodeEnv) (floor : Nat) : Node → Node → Prop := Relation.ReflTransGen (Micro N floor)

variable {N : NodeEnv} {floor : Nat} {s s' : Node}

theorem Micro.onward (h : Micro N floor s s') : Onward s s' := by
  cases h with
  | push h _ => exact h
  | pop h _ _ _ => exact h
  | still h _ _ => exact h

theorem Micro.ok (h : Micro N floor s s') (hs : NodeOk N s) : NodeOk N s' := by
  have hs' := hs.mono (N.clock_mono h.onward.reads)
  cases h with
  | push _ hm => exact hs'.push hm
  | pop _ _ hok _ => exact hok
  | still _ hdb hsub =>
    rw [NodeOk, hdb]
    exact hs'.sub hsub

theorem Micro.below (h : Micro N floor s s') (hfloor : floor ≤ s.db.getChainHeight) :
    floor ≤ s'.db.getChainHeight ∧ ∀ k < floor, s'.db.storedBlock k = s.db.storedBlock k := by
  cases h with
  | push _ hm =>
    have hheight := hm.height
    refine ⟨by omega, ?_⟩
    intro k hk
    rw [hm.pushed.written]
    exact storedBlock_writeStored_lt (by omega)
  | pop _ hlt _ hm =>
    have hheight := hm.height
    refine ⟨by omega, ?_⟩
    intro k hk
    rw [hm.pushed.written]
    exact (storedBlock_writeStored_lt (by omega)).symm
  | still _ hdb _ =>
    rw [hdb]
    exact ⟨hfloor, fun _ _ => rfl⟩

theorem Micro.ledger (h : Micro N floor s s') (hpos : 0 < floor) :
    Relation.ReflTransGen (LedgerStep N.toEnv) s.db s'.db := by
  cases h with
  | push _ hm =>
    obtain ⟨now, -, alt, pre, hpre, hp⟩ := hm.pushed.pushed
    exact .single (.push now alt pre hpre (by rw [← hm.hashes, List.length_map]) hm.pushed.gated hp)
  | pop _ hlt hok hm =>
    have hundo := removeLastBlock_writeStored hok.built.wf hm.pushed.undoable
    rw [← hm.pushed.written] at hundo
    rw [← hundo]
    exact .single (.pop (by omega))
  | still _ hdb _ =>
    rw [hdb]

theorem Trail.onward (h : Trail N floor s s') : Onward s s' := by
  induction h with
  | refl => exact .refl s
  | tail _ hstep ih => exact ih.trans hstep.onward

theorem Trail.ok (h : Trail N floor s s') (hs : NodeOk N s) : NodeOk N s' := by
  induction h with
  | refl => exact hs
  | tail _ hstep ih => exact hstep.ok ih

/-- A trail changes no block below its floor. -/
theorem Trail.below (h : Trail N floor s s') (hfloor : floor ≤ s.db.getChainHeight) :
    floor ≤ s'.db.getChainHeight ∧ ∀ k < floor, s'.db.storedBlock k = s.db.storedBlock k := by
  induction h with
  | refl => exact ⟨hfloor, fun _ _ => rfl⟩
  | tail _ hstep ih =>
    obtain ⟨hle, hsame⟩ := hstep.below ih.1
    exact ⟨hle, fun k hk => (hsame k hk).trans (ih.2 k hk)⟩

theorem Trail.ledger (h : Trail N floor s s') (hpos : 0 < floor) :
    Relation.ReflTransGen (LedgerStep N.toEnv) s.db s'.db := by
  induction h with
  | refl => exact .refl
  | tail _ hstep ih => exact ih.trans (hstep.ledger hpos)

/-! ## Pushing and popping -/

/-- A small step together with what it does to the pool, entry by entry. -/
structure Beat (N : NodeEnv) (floor : Nat) (s s' : Node) : Prop where
  micro : Micro N floor s s'
  moves : PoolMoves N s.db s.pool s'.pool

abbrev Beats (N : NodeEnv) (floor : Nat) : Node → Node → Prop := Relation.ReflTransGen (Beat N floor)

theorem Beats.trail (h : Beats N floor s s') : Trail N floor s s' :=
  Relation.ReflTransGen.mono (fun _ _ (hb : Beat N floor _ _) => hb.micro) s s' h

variable {b : Block} {prevalidated : Option Hash}

theorem pushBlock_beat (floor : Nat) (hs : NodeOk N s)
    (hpre : ∀ p ∈ prevalidated, N.prims.prevalidateBlockProofOfWork b = some p) :
    Beat N floor s (s.pushBlock N b (N.prims.getBlockHash b) prevalidated).2 ∧
      SameForks s (s.pushBlock N b (N.prims.getBlockHash b) prevalidated).2 := by
  have hpos := hs.built.pos
  obtain ⟨hlater, hspec⟩ := pushBlock_spec hs.pool (by omega) hpre
  refine ⟨⟨?_, pushBlock_moves s b _ prevalidated⟩, hlater.toSameForks⟩
  generalize s.pushBlock N b (N.prims.getBlockHash b) prevalidated = r at hlater hspec
  obtain ⟨outcome, s₁⟩ := r
  cases hspec with
  | pushed _ hm => exact .push hlater.toOnward hm
  | refused hdb hview =>
    simp only at hdb hview
    exact .still hlater.toOnward hdb (by rw [hview]; exact .refl _)
  | threw hdb hsub => exact .still hlater.toOnward hdb hsub

theorem pops_beats (hpos : 0 < floor) : ∀ (n : Nat) {s : Node}, NodeOk N s → floor + n ≤ s.db.getChainHeight →
    Beats N floor s ((Node.popBlock N)^[n] s)
  | 0, _, _, _ => .refl
  | n + 1, s, hs, hn => by
    obtain ⟨hlater, hok, sb, hm, -⟩ := popBlock_spec hs (by omega)
    have hheight := hm.height
    have hstep : Micro N floor s (s.popBlock N) := .pop hlater.toOnward (by omega) hok hm
    rw [Function.iterate_succ_apply]
    exact .head ⟨hstep, popBlock_moves s⟩ (pops_beats hpos n hok (by omega))

theorem connect_beats (floor : Nat) : ∀ (l : List Hash) {s : Node}, NodeOk N s →
    Beats N floor s (s.connect N l).2 ∧ SameForks s (s.connect N l).2
  | [], s, _ => ⟨.refl, .refl s⟩
  | k :: l, s, hs => by
    have hnone : ∀ p ∈ (none : Option Hash),
        N.prims.prevalidateBlockProofOfWork (s.alternativeAt k).bl = some p := by simp
    obtain ⟨hbeat, hforks⟩ := pushBlock_beat floor hs hnone
    rw [Node.connect]
    split
    · rename_i s₁ heq
      rw [heq] at hbeat hforks
      obtain ⟨hbeats, hforks'⟩ := connect_beats floor l (hbeat.micro.ok hs)
      exact ⟨.head hbeat hbeats, hforks.trans hforks'⟩
    · rename_i s₁ heq
      rw [heq] at hbeat hforks
      exact ⟨.single hbeat, hforks⟩
    · rename_i s₁ heq
      rw [heq] at hbeat hforks
      exact ⟨.single hbeat, hforks⟩

theorem reconnect_beats (floor : Nat) : ∀ (l : List Block) {s : Node}, NodeOk N s →
    Beats N floor s (s.reconnect N l).2 ∧ SameForks s (s.reconnect N l).2
  | [], s, _ => ⟨.refl, .refl s⟩
  | b :: l, s, hs => by
    have hnone : ∀ p ∈ (none : Option Hash), N.prims.prevalidateBlockProofOfWork b = some p := by simp
    obtain ⟨hbeat, hforks⟩ := pushBlock_beat floor hs hnone
    rw [Node.reconnect]
    split
    · rename_i s₁ heq
      rw [heq] at hbeat hforks
      obtain ⟨hbeats, hforks'⟩ := reconnect_beats floor l (hbeat.micro.ok hs)
      exact ⟨.head hbeat hbeats, hforks.trans hforks'⟩
    · rename_i s₁ heq
      rw [heq] at hbeat hforks
      exact ⟨.single hbeat, hforks⟩
    · rename_i s₁ heq
      rw [heq] at hbeat hforks
      exact ⟨.single hbeat, hforks⟩

/-! ## Switching -/

theorem AltAbove.of_eq (h : AltAbove floor s) (e : s'.alternativeChains = s.alternativeChains) : AltAbove floor s' := by
  intro x hx
  rw [e] at hx
  exact h x hx

theorem AltAbove.erase (h : AltAbove floor s) (hashes : List Hash) : AltAbove floor (s.eraseAlternatives hashes) :=
  fun x hx => h x (((eraseAlternatives_frame hashes s).2.2.2 x).mp hx).1

variable {splitHeight : Nat}

/-- The height every block that is disconnected has at least, and the state at the fork. -/
theorem ForkedAt.beats {disconnected : List Block} {s₁ : Node}
    (h : ForkedAt N s splitHeight disconnected s₁) (hpos : 0 < floor) (hs : NodeOk N s) (habove : AltAbove floor s) :
    floor ≤ splitHeight ∧ Beats N floor s s₁ ∧ SameForks s s₁ ∧ ∀ b ∈ disconnected, floor ≤ getBlockHeight b := by
  obtain ⟨k, hk, hversion⟩ := h.front
  have hle : floor ≤ splitHeight := hk ▸ habove.at hversion
  have hlt := h.lower
  obtain ⟨sbs, s', heq, hiter, hlen, hlater, -, hrow⟩ :=
    disconnect_spec (s.db.getChainHeight - splitHeight) [] hs (by omega)
  rw [List.append_nil, h.down, Prod.mk.injEq] at heq
  obtain ⟨rfl, rfl⟩ := heq
  have hheight := hrow.height
  refine ⟨hle, ?_, hlater.toSameForks, ?_⟩
  · rw [← hiter]
    exact pops_beats hpos _ hs (by omega)
  · intro b hb
    obtain ⟨sb, hsb, rfl⟩ := List.mem_map.mp hb
    have := hrow.getBlockHeight hsb
    omega

/-- What takes back a disconnected block keeps to the floor. -/
def KeepsFloor (N : NodeEnv) (floor : Nat) (handle : Node → Block → Option (Outcome × Node)) : Prop :=
  ∀ {s s' : Node} {b : Block} {outcome : Outcome}, NodeOk N s → floor ≤ s.db.getChainHeight → AltAbove floor s →
    floor ≤ getBlockHeight b → handle s b = some (outcome, s') → Beats N floor s s' ∧ AltAbove floor s'

theorem handBack_beats {handle : Node → Block → Option (Outcome × Node)} (hhandle : KeepsFloor N floor handle) :
    ∀ {l : List Block} {s s' : Node} {outcome : Outcome}, NodeOk N s → floor ≤ s.db.getChainHeight →
      AltAbove floor s → (∀ b ∈ l, floor ≤ getBlockHeight b) → handBack handle s l = some (outcome, s') →
      Beats N floor s s' ∧ AltAbove floor s'
  | [], s, s', outcome, _, _, habove, _, h => by
    cases h
    exact ⟨.refl, habove⟩
  | b :: l, s, s', outcome, hs, hfloor, habove, hl, h => by
    rw [handBack] at h
    split at h
    · rename_i s₁ heq
      obtain ⟨ht, habove₁⟩ := hhandle hs hfloor habove (hl b (by simp)) heq
      obtain ⟨ht', habove'⟩ := handBack_beats hhandle (ht.trail.ok hs) (ht.trail.below hfloor).1 habove₁
        (fun b' hb' => hl b' (by simp [hb'])) h
      exact ⟨ht.trans ht', habove'⟩
    · exact hhandle hs hfloor habove (hl b (by simp)) h

theorem rollback_beats (disconnected : List Block) (hpos : 0 < floor) (hs : NodeOk N s)
    (hfloor : floor ≤ s.db.getChainHeight) (hle : floor ≤ splitHeight) :
    Beats N floor s (s.rollbackBlockchainSwitching N disconnected splitHeight).2 ∧
      SameForks s (s.rollbackBlockchainSwitching N disconnected splitHeight).2 := by
  have hn : s.db.getChainHeight - splitHeight < s.db.getChainHeight := by omega
  obtain ⟨-, s₁, -, hiter, -, hlater, hok, -⟩ := disconnect_spec _ [] hs hn
  have hdown := pops_beats hpos (s.db.getChainHeight - splitHeight) hs (by omega)
  rw [hiter] at hdown
  obtain ⟨hup, hforks⟩ := reconnect_beats floor disconnected hok
  rw [Node.rollbackBlockchainSwitching, hiter]
  exact ⟨hdown.trans hup, hlater.toSameForks.trans hforks⟩

/-- A switch that is rolled back has not touched the alternative blocks. -/
theorem ForkedFor.rolledBack_forks {altChain : List Hash} {disconnected : List Block} {c : Connected}
    {o : Outcome} {s₁ s₂ s₃ : Node} (hfork : ForkedFor N s altChain splitHeight disconnected s₁)
    (hup : s₁.connect N altChain = (c, s₂)) (hroll : s₂.rollbackBlockchainSwitching N disconnected splitHeight = (o, s₃))
    (hs : NodeOk N s) (habove : AltAbove 1 s) : SameForks s s₃ := by
  obtain ⟨hle, hdown, hforks, -⟩ := hfork.beats Nat.one_pos hs habove
  obtain ⟨ht, hforks₂⟩ := connect_beats 1 altChain (hdown.trail.ok hs)
  rw [hup] at ht hforks₂
  have ht₂ : Beats N 1 s s₂ := hdown.trans ht
  obtain ⟨-, hforks₃⟩ := rollback_beats disconnected Nat.one_pos (ht₂.trail.ok hs) (ht₂.trail.below hs.built.pos).1 hle
  rw [hroll] at hforks₃
  exact (hforks.trans hforks₂).trans hforks₃

/-- The alternative blocks and the record of a refused fork are no part of what a trail
describes. -/
theorem Beats.aside (hdb : s'.db = s.db) (hpool : s'.pool = s.pool) (hreads : s'.reads = s.reads) :
    Beats N floor s s' :=
  .single ⟨.still ⟨hreads.ge, by rw [hpool]⟩ hdb (by rw [hpool]; exact .refl _), by rw [hpool]⟩

theorem Switched.beats {handle : Node → Block → Option (Outcome × Node)} {altChain : List Hash} {discard : Bool}
    {outcome : Outcome} (h : Switched N handle s altChain discard outcome s') (hpos : 0 < floor) (hs : NodeOk N s)
    (hfloor : floor ≤ s.db.getChainHeight) (habove : AltAbove floor s) (hhandle : KeepsFloor N floor handle) :
    Beats N floor s s' ∧ AltAbove floor s' := by
  -- down to the fork and up as far as the alternative blocks go
  have hconnect : ∀ {splitHeight disconnected s₁ s₂ c}, ForkedFor N s altChain splitHeight disconnected s₁ →
      s₁.connect N altChain = (c, s₂) → Beats N floor s s₂ ∧ AltAbove floor s₂ := by
    intro splitHeight disconnected s₁ s₂ c hfork hup
    obtain ⟨-, hdown, hforks, -⟩ := hfork.beats hpos hs habove
    obtain ⟨ht, hforks'⟩ := connect_beats floor altChain (hdown.trail.ok hs)
    rw [hup] at ht hforks'
    exact ⟨hdown.trans ht, habove.of_eq (hforks.trans hforks').alts⟩
  have hrollback : ∀ {splitHeight disconnected s₁ s₂ s₃ c o}, ForkedFor N s altChain splitHeight disconnected s₁ →
      s₁.connect N altChain = (c, s₂) → s₂.rollbackBlockchainSwitching N disconnected splitHeight = (o, s₃) →
      Beats N floor s s₃ ∧ AltAbove floor s₃ := by
    intro splitHeight disconnected s₁ s₂ s₃ c o hfork hup hroll
    obtain ⟨ht, habove₂⟩ := hconnect hfork hup
    obtain ⟨ht', hforks⟩ := rollback_beats disconnected hpos (ht.trail.ok hs) (ht.trail.below hfloor).1
      (hfork.beats hpos hs habove).1
    rw [hroll] at ht' hforks
    exact ⟨ht.trans ht', habove₂.of_eq hforks.alts⟩
  have hback : ∀ {splitHeight disconnected s₁ s₂ s₃ c o}, ForkedFor N s altChain splitHeight disconnected s₁ →
      s₁.connect N altChain = (c, s₂) → handBack handle s₂ disconnected = some (o, s₃) →
      Beats N floor s s₃ ∧ AltAbove floor s₃ := by
    intro splitHeight disconnected s₁ s₂ s₃ c o hfork hup hhanded
    obtain ⟨ht, habove₂⟩ := hconnect hfork hup
    obtain ⟨ht', habove₃⟩ := handBack_beats hhandle (ht.trail.ok hs) (ht.trail.below hfloor).1 habove₂
      (hfork.beats hpos hs habove).2.2.2 hhanded
    exact ⟨ht.trans ht', habove₃⟩
  have herase : ∀ (s : Node) (l : List Hash) (f : FinalityForkState),
      Beats N floor s { s.eraseAlternatives l with finalityForkState := f } := by
    intro s l f
    obtain ⟨hdb, hpool, hreads, -⟩ := eraseAlternatives_frame l s
    exact Beats.aside hdb hpool hreads
  cases h with
  | refused => exact ⟨.refl, habove⟩
  | connectThrew hfork hup => exact hconnect hfork hup
  | rollbackThrew hfork hup hroll => exact hrollback hfork hup hroll
  | rolledBack hfork hup hroll =>
    obtain ⟨ht, habove₃⟩ := hrollback hfork hup hroll
    exact ⟨ht.trans (herase _ _ _), habove₃.erase _⟩
  | discarded _ hfork hup =>
    obtain ⟨ht, habove₂⟩ := hconnect hfork hup
    exact ⟨ht.trans (herase _ _ _), habove₂.erase _⟩
  | handBackThrew _ hfork hup hhanded => exact hback hfork hup hhanded
  | handedBack _ hfork hup hhanded =>
    obtain ⟨ht, habove₃⟩ := hback hfork hup hhanded
    exact ⟨ht.trans (herase _ _ _), habove₃.erase _⟩

/-! ## Alternative blocks -/

/-- The block passes as an alternative on top of `br`, as the entry `bei`. -/
structure Accepted (N : NodeEnv) (s : Node) (b : Block) (id : Hash) (prevalidated : Option Hash) (br : Branch)
    (bei : BlockEntry) (isACheckpoint : Bool) : Prop where
  allowed : N.checkpoints.isAlternativeBlockAllowed s.db.getChainHeight (getBlockHeight b) = true
  version : checkBlockVersion b = true
  branch : ∃ walk, altWalk s.alternativeChains s.alternativeChains.entries.length b.previousBlockHash = some walk ∧
    s.branch N walk (s.db.hashHeight b.previousBlockHash) = some br
  checked : s.checkAlternativeBlock N b id prevalidated br = some (bei, isACheckpoint)

/-- The ways `handle_alternative_block` can end: with chain, pool and alternative
blocks as they were, or with a block stored and perhaps a switch. -/
inductive Handled (N : NodeEnv) (switch : Node → List Hash → Bool → Option (Outcome × Node)) (s : Node) (b : Block)
    (id : Hash) (prevalidated : Option Hash) : Outcome → Node → Prop where
  | unchanged (result : Bool) : Handled N switch s b id prevalidated (.returned result) s
  | recorded {altBlockHeight : Nat} :
      N.checkpoints.isFinalityViolation s.db.getChainHeight (getBlockHeight b) = true →
      s.validateCompetingBlock N b = some altBlockHeight →
      Handled N switch s b id prevalidated (.returned false) (s.recordFinalityFork altBlockHeight id)
  | stored {br : Branch} {bei : BlockEntry} {s' : Node} : Accepted N s b id prevalidated br bei false →
      ¬ (s.db.getBlockMeta (s.db.getChainHeight - 1)).cumulativeDifficulty < bei.cumulativeDifficulty →
      s.insertAlternative id bei = some s' → Handled N switch s b id prevalidated (.returned true) s'
  | switched {br : Branch} {bei : BlockEntry} {isACheckpoint : Bool} {s₁ s' : Node} {outcome : Outcome} :
      Accepted N s b id prevalidated br bei isACheckpoint → (isACheckpoint = true ∨
        (s.db.getBlockMeta (s.db.getChainHeight - 1)).cumulativeDifficulty < bei.cumulativeDifficulty) →
      s.insertAlternative id bei = some s₁ → switch s₁ (br.altChain ++ [id]) isACheckpoint = some (outcome, s') →
      Handled N switch s b id prevalidated outcome s'

variable {id : Hash} {bei : BlockEntry}

/-- The entry of a block that passes. -/
theorem Accepted.entry {br : Branch} {isACheckpoint : Bool} (h : Accepted N s b id prevalidated br bei isACheckpoint) :
    let currentDiff := getDifficultyForNextBlock N.toEnv s.db s.findAlternative b.previousBlockHash
    currentDiff ≠ 0 ∧ bei = ⟨b, br.height, br.cumulativeDifficulty + currentDiff, 0⟩ ∧
      getBlockHeight b = br.height ∧ N.checkpoints.checkBlock br.height id = (true, isACheckpoint) := by
  have h := h.checked
  unfold Node.checkAlternativeBlock at h
  split at h; · cases h
  split at h; · cases h
  rename_i hpoint
  split at h; · cases h
  dsimp only at h
  split at h; · cases h
  rename_i hdiff
  split at h; · cases h
  split at h; · cases h
  rename_i hminer
  split at h; · cases h
  cases h
  exact ⟨hdiff, rfl, (MinerTx.of_true (by simpa using hminer)).getBlockHeight, Prod.ext (not_not.mp hpoint) rfl⟩

theorem Accepted.height {br : Branch} {isACheckpoint : Bool} (h : Accepted N s b id prevalidated br bei isACheckpoint) :
    bei.height = getBlockHeight b := by
  obtain ⟨-, rfl, hheight, -⟩ := h.entry
  exact hheight.symm

/-- A stored block changes nothing but the alternative blocks and their index. -/
theorem insertAlternative_some (h : s.insertAlternative id bei = some s') :
    ∃ alts, s.alternativeChains.insert (fun _ _ => true) (id, bei) = some alts ∧ s' = { s with
        alternativeChains := alts
        orphanBlocksIndex := (bei.height, id) :: s.orphanBlocksIndex } := by
  obtain ⟨alts, hinsert, rfl⟩ := Option.map_eq_some_iff.mp h
  exact ⟨alts, hinsert, rfl⟩

theorem handleWith_cases {switch : Node → List Hash → Bool → Option (Outcome × Node)} {outcome : Outcome}
    (h : s.handleWith N switch b id prevalidated = some (outcome, s')) :
    Handled N switch s b id prevalidated outcome s' := by
  unfold Node.handleWith at h
  dsimp only at h
  split at h
  · cases h
    exact .unchanged false
  split at h
  · split at h
    · cases h
      exact .unchanged false
    · rename_i hvalid
      cases h
      split at hvalid
      · rename_i hviolation
        exact .recorded hviolation hvalid
      · cases hvalid
  rename_i hallowed
  split at h
  · cases h
    exact .unchanged false
  rename_i hversion
  split at h
  · cases h
    exact .unchanged false
  split at h
  · cases h
  rename_i walk hwalk
  split at h
  · cases h
    exact .unchanged true
  split at h
  · cases h
    exact .unchanged false
  rename_i br hbranch
  split at h
  · cases h
    exact .unchanged false
  rename_i bei isACheckpoint hcheck
  have haccepted : Accepted N s b id prevalidated br bei isACheckpoint :=
    ⟨by simpa using hallowed, by simpa using hversion, ⟨walk, hwalk, hbranch⟩, hcheck⟩
  unfold Node.storeAlternativeBlock at h
  split at h
  · cases h
    exact .unchanged false
  rename_i s₁ hinsert
  have hdb : s₁.db = s.db := by
    obtain ⟨alts, -, rfl⟩ := insertAlternative_some hinsert
    rfl
  rw [hdb] at h
  split at h
  · rename_i hcheckpoint
    rw [hcheckpoint] at haccepted
    exact .switched haccepted (.inl rfl) hinsert h
  rename_i hcheckpoint
  rw [Bool.not_eq_true] at hcheckpoint
  rw [hcheckpoint] at haccepted
  split at h
  · rename_i hmore
    exact .switched haccepted (.inr hmore) hinsert h
  · rename_i hless
    cases h
    exact .stored haccepted hless hinsert

theorem AltAbove.insert (h : AltAbove floor s) (hbei : floor ≤ bei.height)
    (hinsert : s.insertAlternative id bei = some s') : AltAbove floor s' := by
  obtain ⟨alts, halts, rfl⟩ := insertAlternative_some hinsert
  intro x hx
  rcases (MultiIndex.mem_insert halts).mp hx with rfl | hx
  · exact hbei
  · exact h x hx

theorem Beats.stored (h : s.insertAlternative id bei = some s') : Beats N floor s s' := by
  obtain ⟨alts, -, rfl⟩ := insertAlternative_some h
  exact Beats.aside rfl rfl rfl

/-- However deep the reorganisations nest, nothing below the floor is popped, if the
stored alternative blocks and the new one are not below it. -/
theorem handleAlternativeBlock_beats (hpos : 0 < floor) : ∀ (fuel : Nat) {s s' : Node} {b : Block} {id : Hash}
    {prevalidated : Option Hash} {outcome : Outcome}, NodeOk N s → floor ≤ s.db.getChainHeight → AltAbove floor s →
    (N.checkpoints.isAlternativeBlockAllowed s.db.getChainHeight (getBlockHeight b) = true → floor ≤ getBlockHeight b) →
    handleAlternativeBlock N fuel s b id prevalidated = some (outcome, s') → Beats N floor s s' ∧ AltAbove floor s'
  | 0, _, _, _, _, _, _, _, _, _, _, h => by cases h
  | fuel + 1, s, s', b, id, prevalidated, outcome, hs, hfloor, habove, hb, h => by
    have hhandle : KeepsFloor N floor fun s b => handleAlternativeBlock N fuel s b (N.prims.getBlockHash b) none :=
      fun hs hfloor habove hb h => handleAlternativeBlock_beats hpos fuel hs hfloor habove (fun _ => hb) h
    rw [handleAlternativeBlock] at h
    cases handleWith_cases h with
    | unchanged => exact ⟨.refl, habove⟩
    | recorded => exact ⟨Beats.aside rfl rfl rfl, habove⟩
    | stored haccepted _ hinsert =>
      exact ⟨.stored hinsert, habove.insert (by rw [haccepted.height]; exact hb haccepted.allowed) hinsert⟩
    | switched haccepted _ hinsert hswitch =>
      have hstored : Beats N floor s _ := .stored hinsert
      obtain ⟨ht, habove'⟩ := (switchWith_cases hswitch).beats hpos (hstored.trail.ok hs)
        (hstored.trail.below hfloor).1 (habove.insert (by rw [haccepted.height]; exact hb haccepted.allowed) hinsert)
        hhandle
      exact ⟨hstored.trans ht, habove'⟩

theorem BlockCall.beats (h : BlockCall N s s') (hpos : 0 < floor) (hs : NodeOk N s)
    (hfloor : floor ≤ s.db.getChainHeight) (habove : AltAbove floor s)
    (hallowed : ∀ height, N.checkpoints.isAlternativeBlockAllowed s.db.getChainHeight height = true → floor ≤ height) :
    Beats N floor s s' ∧ AltAbove floor s' := by
  obtain ⟨fuel, b, prevalidated, hproof, hcall⟩ := h
  unfold addNewBlock at hcall
  dsimp only at hcall
  split at hcall
  · cases hcall
    exact ⟨.refl, habove⟩
  split at hcall
  · cases hcall
    exact ⟨.refl, habove⟩
  split at hcall
  · exact handleAlternativeBlock_beats hpos fuel hs hfloor habove (hallowed _) hcall
  · have hpre : ∀ p ∈ prevalidated.map PrevalidatedBlockProof.proofOfWork,
        N.prims.prevalidateBlockProofOfWork b = some p := by
      intro p hp
      obtain ⟨q, hq, rfl⟩ := Option.mem_map.mp hp
      exact hproof q hq
    obtain ⟨hbeat, hforks⟩ := pushBlock_beat floor hs hpre
    rw [Option.some.injEq] at hcall
    rw [hcall] at hbeat hforks
    exact ⟨.single hbeat, habove.of_eq hforks.alts⟩

/-! ## The other calls -/

variable {clock : Nat} {view : View}

/-- A transaction that is new to the chain may enter the pool. -/
theorem ChainOk.add {db : Db} {tx : Transaction} (h : ChainOk N clock db view) (hgate : Gated N.P tx)
    (hnew : db.txIndex (getObjectHash N.P tx) = none) : ChainOk N clock db (view.put (getObjectHash N.P tx) tx) := by
  refine ⟨h.built, h.hashes, ?_, ?_⟩
  · intro k tx' hk
    rw [Table.put_apply] at hk
    split at hk
    · rename_i hkey
      cases hk
      exact ⟨hkey.symm, hgate⟩
    · exact h.pool k tx' hk
  · intro sb hsb k hk
    have hne : k ≠ getObjectHash N.P tx := by
      intro hkey
      have hindexed := h.built.indexed hsb hk
      rw [hkey, hnew] at hindexed
      cases hindexed
    rw [Table.put_of_ne _ _ hne]
    exact h.apart sb hsb k hk

/-- Work on the pool alone that keeps it in order. -/
structure PoolStep (N : NodeEnv) (s s' : Node) : Prop where
  db : s'.db = s.db
  alts : s'.alternativeChains = s.alternativeChains
  ok : NodeOk N s → NodeOk N s'

theorem PoolStep.refl (s : Node) : PoolStep N s s := ⟨rfl, rfl, id⟩

/-- What handing in a transaction does: nothing, or `add_tx` of one that passed the gate
and is neither on the chain nor in the pool. -/
inductive Incoming (N : NodeEnv) (s : Node) (keptByBlock : Bool) : Node → Prop where
  | nothing : Incoming N s keptByBlock s
  | added {tx : Transaction} : Gated N.P tx → s.db.txIndex (getObjectHash N.P tx) = none →
      s.pool.view (getObjectHash N.P tx) = none → getObjectBinarySize tx = (toBinaryArray tx).length →
      Incoming N s keptByBlock (s.addTx N tx keptByBlock).2

theorem handleIncomingTx_cases (txBlob : Bytes) (keptByBlock : Bool) :
    Incoming N s keptByBlock (handleIncomingTx N s txBlob keptByBlock).2 := by
  unfold handleIncomingTx
  split; · exact .nothing
  split; · exact .nothing
  rename_i tx txHash hparse
  -- hash and size of a blob that parses are those of the transaction
  have hblob : txHash = getObjectHash N.P tx ∧ txBlob.length = getObjectBinarySize tx ∧
      getObjectBinarySize tx = (toBinaryArray tx).length := by
    obtain ⟨tx', htx', he⟩ := Option.map_eq_some_iff.mp hparse
    cases he
    obtain ⟨hok, hbytes⟩ := toBinaryArray_fromBinaryArray htx'
    rw [getObjectHash, getObjectBinarySize, if_pos hok, if_pos hok]
    exact ⟨congrArg N.P.cnFastHash hbytes.symm, congrArg List.length hbytes.symm, rfl⟩
  obtain ⟨rfl, hsize, hwhole⟩ := hblob
  unfold Node.handleIncomingTransaction
  dsimp only
  split; · exact .nothing
  split; · exact .nothing
  split; · exact .nothing
  split; · exact .nothing
  rename_i hgate
  split; · exact .nothing
  unfold Node.addNewTx
  split; · exact .nothing
  rename_i hnew
  split; · exact .nothing
  rename_i hfree
  rw [hsize]
  refine .added ⟨keptByBlock, by simpa using hgate⟩ (by simpa using hnew) ?_ hwhole
  simpa [Pool.haveTx, Pool.view] using hfree

theorem Incoming.step {keptByBlock : Bool} (h : Incoming N s keptByBlock s') : PoolStep N s s' := by
  cases h with
  | nothing => exact .refl s
  | @added tx hgate hnew hfree =>
    refine ⟨rfl, rfl, ?_⟩
    intro hs
    have hs' := hs.mono (N.clock_mono (Nat.le_succ s.reads))
    rcases addTx_cases N.toEnv s.db s.currentBlockCumulSzLimit (N.clock s.reads) s.pool tx (getObjectHash N.P tx)
      (getObjectBinarySize tx) keptByBlock with hsame | ⟨-, hview, -⟩
    · rw [NodeOk]
      simp only [Node.addTx, hsame]
      exact hs'
    · rw [NodeOk]
      simp only [Node.addTx, hview]
      exact hs'.add hgate hnew

theorem PoolCall.step (h : PoolCall N s s') : PoolStep N s s' := by
  cases h with
  | transaction txBlob keptByBlock => exact (handleIncomingTx_cases txBlob keptByBlock).step
  | template medianSize maxCumulativeSize =>
    refine ⟨rfl, rfl, ?_⟩
    intro hs
    rw [NodeOk, Node.fillBlockTemplate]
    simp only [fillBlockTemplate_view]
    exact hs
  | difference => exact ⟨rfl, rfl, id⟩
  | idle =>
    refine ⟨rfl, rfl, ?_⟩
    intro hs
    have hsub := (removeStaleAccountRegistrations_sub N.P s.db
      (removeExpiredTransactions N.P (N.clock s.reads) s.pool)).1.trans
      (removeExpiredTransactions_sub N.P (N.clock s.reads) s.pool).1
    exact ((hs.mono (N.clock_mono (Nat.le_succ s.reads))).sub hsub)

theorem ChainOk.removeLastBlock {db : Db} (h : ChainOk N clock db view) (hlen : 1 < db.getChainHeight) :
    ChainOk N clock (L3.removeLastBlock N.P db) view := by
  obtain ⟨blocks, sb, hblocks, hbuilt, -⟩ := h.built.removeLastBlock hlen
  have hmem : ∀ sb' ∈ (L3.removeLastBlock N.P db).storedBlocks, sb' ∈ db.storedBlocks := by
    intro sb' hsb'
    rw [hbuilt.storedBlocks] at hsb'
    rw [hblocks]
    simp [hsb']
  exact ⟨hbuilt.storedBlocks.symm ▸ hbuilt, fun sb' hsb' => h.hashes sb' (hmem sb' hsb'), h.pool,
    fun sb' hsb' => h.apart sb' (hmem sb' hsb')⟩

/-- Blocks that an operator removes leave the pool as it is. -/
theorem ChainOk.removeBlocks : ∀ (n : Nat) {db : Db}, ChainOk N clock db view →
    n < db.getChainHeight → ChainOk N clock ((L3.removeLastBlock N.P)^[n] db) view ∧
      Relation.ReflTransGen (LedgerStep N.toEnv) db ((L3.removeLastBlock N.P)^[n] db)
  | 0, _, h, _ => ⟨h, .refl⟩
  | n + 1, db, h, hn => by
    obtain ⟨blocks, sb, -, -, hpushed⟩ := h.built.removeLastBlock (by omega)
    have hheight := congrArg Db.getChainHeight hpushed.written
    rw [writeStored_getChainHeight] at hheight
    obtain ⟨hok, hrun⟩ := ChainOk.removeBlocks n (h.removeLastBlock (by omega)) (by omega)
    rw [Function.iterate_succ_apply]
    exact ⟨hok, .head (.pop (by omega)) hrun⟩

theorem rollbackBlockchainTo_spec (hs : NodeOk N s) (height : Nat) :
    NodeOk N (s.rollbackBlockchainTo N height) ∧
      Relation.ReflTransGen (LedgerStep N.toEnv) s.db (s.rollbackBlockchainTo N height).db := by
  have hpos := hs.built.pos
  exact ChainOk.removeBlocks _ hs (by omega)

theorem OperatorCall.spec (h : OperatorCall N s s') (hs : NodeOk N s) :
    NodeOk N s' ∧ s'.alternativeChains = s.alternativeChains ∧
      Relation.ReflTransGen (LedgerStep N.toEnv) s.db s'.db := by
  cases h with
  | rollback height =>
    obtain ⟨hok, hrun⟩ := rollbackBlockchainTo_spec hs height
    exact ⟨hok, rfl, hrun⟩
  | resync =>
    unfold Node.resyncToMajority
    dsimp only
    split; · exact ⟨hs, rfl, .refl⟩
    split; · exact ⟨hs, rfl, .refl⟩
    obtain ⟨hok, hrun⟩ := rollbackBlockchainTo_spec hs s.finalityForkState.divergenceHeight
    exact ⟨hok, rfl, hrun⟩

/-! ## Every reachable node -/

/-- What holds between calls. -/
structure NodeInv (N : NodeEnv) (s : Node) : Prop where
  ok : NodeOk N s
  above : AltAbove 1 s

theorem NodeInv.block (h : NodeInv N s) (hcall : BlockCall N s s') : Beats N 1 s s' ∧ NodeInv N s' := by
  have hpos := h.ok.built.pos
  obtain ⟨ht, habove⟩ := hcall.beats Nat.one_pos h.ok hpos h.above (by
    intro height hallowed
    unfold Checkpoints.isAlternativeBlockAllowed at hallowed
    split at hallowed
    · cases hallowed
    · omega)
  exact ⟨ht, ht.trail.ok h.ok, habove⟩

/-- Genesis goes into an empty store. -/
theorem genesis_spec {genesis : Block}
    (hpush : Node.new.pushBlock N genesis (N.prims.getBlockHash genesis) none = (.returned true, s)) :
    SameForks Node.new s ∧ ∃ sb, sb.block = genesis ∧
      Moves N (N.clock s.reads) Node.new.db Node.new.pool.view sb s.db s.pool.view := by
  have hpool : PoolOk N.P Node.new.pool.view := by
    intro k tx hk
    cases hk
  have hnone : ∀ p ∈ (none : Option Hash), N.prims.prevalidateBlockProofOfWork genesis = some p := by simp
  obtain ⟨hlater, hspec⟩ := pushBlock_spec (s := Node.new) hpool (fun _ => rfl) hnone
  rw [hpush] at hlater hspec
  cases hspec with
  | @pushed _ sb hblock hm => exact ⟨hlater.toSameForks, sb, hblock, hm⟩

theorem node_inductive (N : NodeEnv) : (nodeLts N).Inductive (NodeInv N) := by
  refine ⟨?_, ?_⟩
  · rintro s ⟨genesis, hempty, hpush⟩
    obtain ⟨hforks, sb, rfl, hm⟩ := genesis_spec hpush
    have hblocks : s.db.storedBlocks = [sb] := hm.storedBlocks
    have htxs : sb.txs = [] := by
      have := hm.hashes
      rw [hempty, List.map_eq_nil_iff] at this
      exact this
    refine ⟨⟨hblocks ▸ .genesis htxs hm.pushed, ?_, ?_, ?_⟩, ?_⟩
    · intro sb' hsb'
      rw [hblocks, List.mem_singleton] at hsb'
      rw [hsb']
      exact hm.hashes
    · rw [hm.moved]
      intro k tx hk
      cases Sub.removeAll _ _ k tx hk
    · intro sb' hsb' k hk
      rw [hblocks, List.mem_singleton] at hsb'
      rw [hsb', hempty] at hk
      cases hk
    · intro x hx
      rw [hforks.alts] at hx
      cases hx
  · intro s s' hs hstep
    rcases hstep with hcall | hcall | hcall
    · exact (hs.block hcall).2
    · exact ⟨hcall.step.ok hs.ok, hs.above.of_eq hcall.step.alts⟩
    · obtain ⟨hok, halts, -⟩ := hcall.spec hs.ok
      exact ⟨hok, hs.above.of_eq halts⟩

theorem node_inv (h : (nodeLts N).Reachable s) : NodeInv N s := (node_inductive N).reachable h

/-- The chain of a reachable node is a reachable store. -/
theorem node_refines_ledger (h : (nodeLts N).Reachable s) : (ledgerLts N.toEnv).Reachable s.db := by
  refine h.simulate Node.db (NodeInv N) (node_inductive N) ?_ ?_
  · rintro s ⟨genesis, hempty, hpush⟩
    apply Lts.Reachable.init
    simp only [Node.pushBlock, Node.loadTransactions, hempty, Node.takeAll, List.reverse_nil] at hpush
    split at hpush
    · rename_i db hp
      cases hpush
      exact ⟨N.clock 0, genesis, hempty, hp⟩
    · cases hpush
  · intro s s' hs hstep
    rcases hstep with hcall | hcall | hcall
    · exact (hs.block hcall).1.trail.ledger Nat.one_pos
    · rw [hcall.step.db]
    · exact (hcall.spec hs.ok).2.2

/-! ## Failed reorganisations -/

/-- A node between two calls, or at some point within a call. -/
def Running (N : NodeEnv) (s : Node) : Prop :=
  ∃ s₀, (nodeLts N).Reachable s₀ ∧ Trail N 1 s₀ s ∧ AltAbove 1 s

theorem Running.of_reachable (h : (nodeLts N).Reachable s) : Running N s := ⟨s, h, .refl, (node_inv h).above⟩

/-- A switch that returns false leaves the chain with all its tables, and what the pool
holds, as they were. When it has popped blocks before it failed, pushing them again goes
through. -/
theorem failed_switch_restores (h : Running N s) (fuel : Nat) (altChain : List Hash) (discard : Bool) :
    (∀ s', switchToAlternativeBlockchain N fuel s altChain discard = some (.returned false, s') →
      s'.db = s.db ∧ s'.pool.view = s.pool.view) ∧
    ∀ splitHeight disconnected rest s₁ s₂, ForkedAt N s splitHeight disconnected s₁ →
      s₁.connect N altChain = (.failed rest, s₂) →
      ∃ s₃, s₂.rollbackBlockchainSwitching N disconnected splitHeight = (.returned true, s₃) ∧ s₃.db = s.db ∧
        s₃.pool.view = s.pool.view := by
  obtain ⟨s₀, hreach, ht, habove⟩ := h
  have hs := ht.ok (node_inv hreach).ok
  refine ⟨?_, ?_⟩
  · intro s' hswitch
    exact (switchWith_cases hswitch).restored hs habove
  · intro splitHeight disconnected rest s₁ s₂ hfork hup
    obtain ⟨k, rfl, hversion⟩ := hfork.front
    obtain ⟨s₃, hroll, -, hdb, hview⟩ := rollback_restores hs (habove.at hversion) hfork.lower hfork.down hup
    exact ⟨s₃, hroll, hdb, hview⟩

/-! ### Runs -/

/-- Primitives for runs without transfers: spend commitments are all alike, and a
transaction is known by its first bytes, where a coinbase states its height. -/
def flatPrimitives : NodePrimitives :=
  { toyPrimitives with
    sha3_256 := fun _ => nullHash
    cnFastHash := fun bs => toyHash (bs.take 16) }

def flatNode : NodeEnv where
  prims := flatPrimitives
  currency := { testnet := true, genesisBlockHash := nullHash }
  checkpoints := .none
  clock := fun _ => 2000
  clock_mono := monotone_const

/-- Blocks handed in one after the other, the first as genesis. -/
def addBlocks (N : NodeEnv) (fuel : Nat) (genesis : Block) (l : List Block) : Option Node :=
  match Node.new.pushBlock N genesis (N.prims.getBlockHash genesis) none with
  | (.returned true, s) => l.foldlM (fun s b => (addNewBlock N fuel s b none).map Prod.snd) s
  | _ => none

theorem foldlM_run {M : Lts Node} (hstep : ∀ {s s'}, BlockCall N s s' → M.Step s s') {fuel : Nat} {l : List Block}
    {s₀ : Node} (hs₀ : M.Reachable s₀)
    (h : l.foldlM (fun s b => (addNewBlock N fuel s b none).map Prod.snd) s₀ = some s) : M.Reachable s := by
  refine foldlM_some (fun s b s₁ _ hs h₁ => ?_) hs₀ h
  obtain ⟨⟨outcome, s₁'⟩, hcall, rfl⟩ := Option.map_eq_some_iff.mp h₁
  exact hs.step (hstep (.mk fuel b none (by simp) hcall))

/-- Such a run is one of `addNewBlock` calls. -/
theorem addBlocks_run {M : Lts Node} (hinit : ∀ {s}, NodeInit N s → M.Init s)
    (hstep : ∀ {s s'}, BlockCall N s s' → M.Step s s') {fuel : Nat} {genesis : Block} {l : List Block}
    (hg : genesis.transactionHashes = []) (h : addBlocks N fuel genesis l = some s) : M.Reachable s := by
  unfold addBlocks at h
  split at h
  · rename_i s₀ hpush
    exact foldlM_run hstep (.init (hinit ⟨genesis, hg, hpush⟩)) h
  · cases h

/-- The node such a run ends in, with what is decided of it. -/
theorem exists_addBlocks {P : Node → Prop} [DecidablePred P] (fuel : Nat) (genesis : Block) (l : List Block)
    (hg : genesis.transactionHashes = []) (h : (addBlocks N fuel genesis l).any (fun s => decide (P s)) = true) :
    ∃ s, (nodeLts N).Reachable s ∧ P s := by
  obtain ⟨s, hrun, hp⟩ := (Option.any_eq_true _ _).mp h
  exact ⟨s, addBlocks_run id .inl hg hrun, of_decide_eq_true hp⟩

def flatId (b : Block) : Hash := flatPrimitives.getBlockHash b

def flatBlock (previous : Hash) (height : UInt32) (timestamp amount : UInt64) (hashes : List Hash) : Block :=
  toyBlock height previous timestamp
    ⟨amount, if height = 0 then 0 else UInt64.ofNat (height.toNat + minedMoneyUnlockWindow), .coinbase ⟨nullHash⟩⟩
    hashes

def flatGenesis : Block := flatBlock nullHash 0 1000 1000 []

/-- A block that pays the full reward. -/
def flatNext (b : Block) (height : UInt32) (timestamp : UInt64) (hashes : List Hash) : Block :=
  flatBlock (flatId b) height timestamp 8010 hashes

theorem node_refines_ledger_flatNext :
    ∃ s, (nodeLts flatNode).Reachable s ∧ s.db.getChainHeight = 2 ∧ (ledgerLts flatNode.toEnv).Reachable s.db := by
  obtain ⟨s, hreach, hlen⟩ := exists_addBlocks (N := flatNode) (P := fun s => s.db.getChainHeight = 2) 1 flatGenesis
    [flatNext flatGenesis 1 1090 []] rfl (by decide +kernel)
  exact ⟨s, hreach, hlen, node_refines_ledger hreach⟩

/-- A block that pays its miner too much: nothing looks at the amount before the block
is pushed. -/
def flatGreedy : Block := flatBlock (flatId flatGenesis) 1 1091 9000 []

/-- The greedy block is stored as an alternative to block 1; switching to it pops block 1,
fails and pushes block 1 again. -/
theorem failed_switch_restores_flatGreedy :
    ∃ s s', (nodeLts flatNode).Reachable s ∧ s.db.getChainHeight = 2 ∧
      switchToAlternativeBlockchain flatNode 1 s [flatId flatGreedy] false = some (.returned false, s') ∧
      s.reads < s'.reads ∧ s'.db = s.db := by
  obtain ⟨s, hreach, hlen, hp⟩ := exists_addBlocks (N := flatNode) (P := fun s => s.db.getChainHeight = 2 ∧
      (switchToAlternativeBlockchain flatNode 1 s [flatId flatGreedy] false).any fun r =>
        decide (r.1 = .returned false ∧ s.reads < r.2.reads))
    1 flatGenesis [flatNext flatGenesis 1 1090 [], flatGreedy] rfl (by decide +kernel)
  obtain ⟨⟨outcome, s'⟩, hswitch, hr⟩ := (Option.any_eq_true _ _).mp hp
  obtain ⟨hout, hreads⟩ := of_decide_eq_true hr
  simp only at hout hreads
  subst hout
  exact ⟨s, s', hreach, hlen, hswitch, hreads,
    ((failed_switch_restores (.of_reachable hreach) 1 _ false).1 s' hswitch).1⟩

end Discrete.L4
