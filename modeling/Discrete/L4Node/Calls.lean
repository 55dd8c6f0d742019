import Discrete.L3Ledger.Links
import Discrete.L4Node.PoolRun

/-!
# Calls under conditions

What a run of calls preserves often depends on what is asked of each call. `guardedLts`
is the node with a condition on every block that is offered and on every request of the
operator.

* `Offered`: what offering a block can do.
* `CallInv.offered`: what pushing, popping and storing single blocks preserve, a whole call
  preserves, however deep its reorganisations nest.
* `Steady.callInv`: a call only uses blocks that were offered.
* `Calm.callInv`: while no transaction of the pool repeats a tag, no call throws.
-/
namespace Discrete.L4
open L1 L2 L3

variable {N : NodeEnv} {s s' : Node}

/-! ## Conditions on calls -/

/-- A call to `addNewBlock` with `b` that comes back. -/
inductive Offer (N : NodeEnv) (s : Node) (b : Block) : Outcome → Node → Prop where
  | mk {s' : Node} {outcome : Outcome} (fuel : Nat) (prevalidated : Option PrevalidatedBlockProof) :
      (∀ p ∈ prevalidated, N.prims.prevalidateBlockProofOfWork b = some p.proofOfWork) →
      addNewBlock N fuel s b prevalidated = some (outcome, s') → Offer N s b outcome s'

/-- What is asked of the blocks offered to a node and of its operator. -/
structure Guards where
  genesis : Block → Prop
  offer : Node → Block → Prop
  rollback : Node → Nat → Prop
  resync : Node → Prop

inductive GuardedStep (N : NodeEnv) (G : Guards) : Node → Node → Prop where
  | offer {s s' : Node} {b : Block} {outcome : Outcome} : G.offer s b → Offer N s b outcome s' → GuardedStep N G s s'
  | pool {s s' : Node} : PoolCall N s s' → GuardedStep N G s s'
  | rollback {s : Node} {height : Nat} : G.rollback s height → GuardedStep N G s (s.rollbackBlockchainTo N height)
  | resync {s : Node} : G.resync s → GuardedStep N G s (s.resyncToMajority N).2

def guardedLts (N : NodeEnv) (G : Guards) : Lts Node where
  Init s := ∃ genesis, G.genesis genesis ∧ genesis.transactionHashes = [] ∧
    Node.new.pushBlock N genesis (N.prims.getBlockHash genesis) none = (.returned true, s)
  Step := GuardedStep N G

theorem guarded_node {G : Guards} (h : (guardedLts N G).Reachable s) : (nodeLts N).Reachable s := by
  refine Lts.Reachable.mono (M := guardedLts N G) (N := nodeLts N) ?_ ?_ h
  · intro s ⟨genesis, _, hempty, hpush⟩
    exact ⟨genesis, hempty, hpush⟩
  · intro s s' hstep
    cases hstep with
    | offer _ hoffer =>
      obtain ⟨fuel, prevalidated, hproof, hcall⟩ := hoffer
      exact .inl (.mk fuel _ prevalidated hproof hcall)
    | pool hcall => exact .inr (.inl hcall)
    | rollback => exact .inr (.inr (.rollback _))
    | resync => exact .inr (.inr .resync)

/-- What offering a block can do. -/
inductive Offered (N : NodeEnv) (s : Node) (b : Block) : Outcome → Node → Prop where
  | refused : Offered N s b (.returned false) s
  | pushed {prevalidated : Option Hash} : s.haveBlock (N.prims.getBlockHash b) = false →
      b.previousBlockHash = s.db.getTailId → (∀ p ∈ prevalidated, N.prims.prevalidateBlockProofOfWork b = some p) →
      Offered N s b (s.pushBlock N b (N.prims.getBlockHash b) prevalidated).1
        (s.pushBlock N b (N.prims.getBlockHash b) prevalidated).2
  | handled {outcome : Outcome} {s' : Node} {prevalidated : Option Hash} (fuel : Nat) :
      s.haveBlock (N.prims.getBlockHash b) = false → b.previousBlockHash ≠ s.db.getTailId →
      (∀ p ∈ prevalidated, N.prims.prevalidateBlockProofOfWork b = some p) →
      handleAlternativeBlock N fuel s b (N.prims.getBlockHash b) prevalidated = some (outcome, s') →
      Offered N s b outcome s'

theorem Offer.cases {b : Block} {outcome : Outcome} (h : Offer N s b outcome s') : Offered N s b outcome s' := by
  obtain ⟨fuel, prevalidated, hproof, hcall⟩ := h
  have hpre : ∀ p ∈ prevalidated.map PrevalidatedBlockProof.proofOfWork,
      N.prims.prevalidateBlockProofOfWork b = some p := by
    intro p hp
    obtain ⟨q, hq, rfl⟩ := Option.mem_map.mp hp
    exact hproof q hq
  unfold addNewBlock at hcall
  dsimp only at hcall
  split at hcall
  · cases hcall
    exact .refused
  split at hcall
  · cases hcall
    exact .refused
  rename_i hnew
  rw [Bool.not_eq_true] at hnew
  split at hcall
  · rename_i hprev
    exact .handled fuel hnew hprev hpre hcall
  · rename_i hprev
    rw [Option.some.injEq] at hcall
    have hpushed := Offered.pushed hnew (not_not.mp hprev) hpre
    rw [hcall] at hpushed
    exact hpushed

/-! ## From single blocks to whole calls -/

/-- `I` is kept by everything that a call does with one block, as long as the blocks are
in `Q`. A push throws only if `throws`. -/
structure CallInv (N : NodeEnv) (I : Node → Prop) (Q : Block → Prop) (throws : Prop) : Prop where
  ok : ∀ {s}, I s → NodeOk N s
  push : ∀ {s b prevalidated}, I s → Q b → (∀ p ∈ prevalidated, N.prims.prevalidateBlockProofOfWork b = some p) →
    I (s.pushBlock N b (N.prims.getBlockHash b) prevalidated).2 ∧
      ((s.pushBlock N b (N.prims.getBlockHash b) prevalidated).1 = .threw → throws)
  pop : ∀ {s}, I s → 1 < s.db.getChainHeight → I (s.popBlock N) ∧ ∀ b ∈ s.db.blockData (s.db.getChainHeight - 1), Q b
  alt : ∀ {s k}, I s → checkBlockVersion (s.alternativeAt k).bl = true →
    Q (s.alternativeAt k).bl ∧ 1 ≤ (s.alternativeAt k).height
  insert : ∀ {s s' b prevalidated br bei isACheckpoint}, I s → Q b →
    Accepted N s b (N.prims.getBlockHash b) prevalidated br bei isACheckpoint →
    s.insertAlternative (N.prims.getBlockHash b) bei = some s' → I s'
  record : ∀ {s b altBlockHeight}, I s → Q b → I (s.recordFinalityFork altBlockHeight (N.prims.getBlockHash b))
  erase : ∀ {s} (hashes : List Hash), I s → I (s.eraseAlternatives hashes)
  clear : ∀ {s}, I s → I { s with finalityForkState := .clear }

section CallInv
variable {I : Node → Prop} {Q : Block → Prop} {throws : Prop}

theorem CallInv.push_none (h : CallInv N I Q throws) {b : Block} (hs : I s) (hb : Q b) :
    I (s.pushBlock N b (N.prims.getBlockHash b) none).2 ∧
      ((s.pushBlock N b (N.prims.getBlockHash b) none).1 = .threw → throws) ∧
      SameForks s (s.pushBlock N b (N.prims.getBlockHash b) none).2 := by
  have hnone : ∀ p ∈ (none : Option Hash), N.prims.prevalidateBlockProofOfWork b = some p := by simp
  obtain ⟨hI, hret⟩ := h.push hs hb hnone
  exact ⟨hI, hret, (pushBlock_beat 1 (h.ok hs) hnone).2⟩

theorem CallInv.disconnect (h : CallInv N I Q throws) : ∀ (n : Nat) {s : Node} {acc : List Block}, I s →
    n < s.db.getChainHeight → (∀ b ∈ acc, Q b) →
    I (Node.disconnect N n s acc).2 ∧ ∀ b ∈ (Node.disconnect N n s acc).1, Q b
  | 0, s, acc, hs, _, hacc => ⟨hs, hacc⟩
  | n + 1, s, acc, hs, hn, hacc => by
    obtain ⟨hpop, hblock⟩ := h.pop hs (by omega)
    obtain ⟨-, -, sb, hm, -⟩ := popBlock_spec (h.ok hs) (by omega)
    have hheight := hm.height
    rw [Node.disconnect]
    refine h.disconnect n hpop (by omega) ?_
    intro b hb
    rcases List.mem_append.mp hb with hb | hb
    · exact hblock b (Option.mem_toList.mp hb)
    · exact hacc b hb

theorem CallInv.pops (h : CallInv N I Q throws) : ∀ (n : Nat) {s : Node}, I s → n < s.db.getChainHeight →
    I ((Node.popBlock N)^[n] s)
  | 0, _, hs, _ => hs
  | n + 1, s, hs, hn => by
    obtain ⟨hpop, -⟩ := h.pop hs (by omega)
    obtain ⟨-, -, sb, hm, -⟩ := popBlock_spec (h.ok hs) (by omega)
    have hheight := hm.height
    rw [Function.iterate_succ_apply]
    exact h.pops n hpop (by omega)

theorem CallInv.connect (h : CallInv N I Q throws) : ∀ (l : List Hash) {s : Node}, I s →
    (∀ k ∈ l, checkBlockVersion (s.alternativeAt k).bl = true) →
    I (s.connect N l).2 ∧ ∀ s', s.connect N l = (.threw, s') → throws
  | [], s, hs, _ => ⟨hs, fun s' he => by cases he⟩
  | k :: l, s, hs, hl => by
    obtain ⟨hI, hret, hforks⟩ := h.push_none hs (h.alt hs (hl k (by simp))).1
    rw [Node.connect]
    split
    · rename_i s₁ heq
      rw [heq] at hI hforks
      refine h.connect l hI ?_
      intro j hj
      rw [Node.alternativeAt, Node.findAlternative, hforks.alts]
      exact hl j (by simp [hj])
    · rename_i s₁ heq
      rw [heq] at hI
      exact ⟨hI, fun s' he => by cases he⟩
    · rename_i s₁ heq
      rw [heq] at hI hret
      exact ⟨hI, fun _ _ => hret rfl⟩

theorem CallInv.reconnect (h : CallInv N I Q throws) : ∀ (l : List Block) {s : Node}, I s → (∀ b ∈ l, Q b) →
    I (s.reconnect N l).2 ∧ ((s.reconnect N l).1 = .threw → throws)
  | [], s, hs, _ => ⟨hs, by simp [Node.reconnect]⟩
  | b :: l, s, hs, hl => by
    obtain ⟨hI, hret, -⟩ := h.push_none hs (hl b (by simp))
    rw [Node.reconnect]
    split
    · rename_i s₁ heq
      rw [heq] at hI
      exact h.reconnect l hI fun b' hb' => hl b' (by simp [hb'])
    · rename_i s₁ heq
      rw [heq] at hI
      exact ⟨hI, by simp⟩
    · rename_i s₁ heq
      rw [heq] at hI hret
      exact ⟨hI, hret⟩

theorem CallInv.handBack {handle : Node → Block → Option (Outcome × Node)}
    (hhandle : ∀ {s s' b outcome}, I s → Q b → handle s b = some (outcome, s') → I s' ∧ (outcome = .threw → throws)) :
    ∀ {l : List Block} {s s' : Node} {outcome : Outcome}, I s → (∀ b ∈ l, Q b) →
      L4.handBack handle s l = some (outcome, s') → I s' ∧ (outcome = .threw → throws)
  | [], s, s', outcome, hs, _, h => by
    cases h
    exact ⟨hs, by simp⟩
  | b :: l, s, s', outcome, hs, hl, h => by
    rw [L4.handBack] at h
    split at h
    · rename_i s₁ heq
      exact CallInv.handBack hhandle (hhandle hs (hl b (by simp)) heq).1 (fun b' hb' => hl b' (by simp [hb'])) h
    · exact hhandle hs (hl b (by simp)) h

/-- The state at the fork, and what was popped on the way down. -/
theorem CallInv.forkedAt (h : CallInv N I Q throws) {splitHeight : Nat} {disconnected : List Block} {s₁ : Node} (hs : I s)
    (hfork : ForkedAt N s splitHeight disconnected s₁) :
    1 ≤ splitHeight ∧ splitHeight < s.db.getChainHeight ∧ I s₁ ∧ (∀ b ∈ disconnected, Q b) ∧ SameForks s s₁ := by
  obtain ⟨k, hk, hversion⟩ := hfork.front
  have hle : 1 ≤ splitHeight := hk ▸ (h.alt hs hversion).2
  have hlt := hfork.lower
  obtain ⟨hI, hQ⟩ := h.disconnect (s.db.getChainHeight - splitHeight) hs (by omega)
    (fun b (hb : b ∈ []) => absurd hb List.not_mem_nil)
  obtain ⟨sbs, s', heq, -, -, hlater, -⟩ :=
    disconnect_spec (s.db.getChainHeight - splitHeight) [] (h.ok hs) (by omega)
  rw [hfork.down] at hI hQ heq
  cases heq
  exact ⟨hle, hlt, hI, hQ, hlater.toSameForks⟩

theorem CallInv.switched (h : CallInv N I Q throws) {handle : Node → Block → Option (Outcome × Node)} {altChain : List Hash}
    {discard : Bool} {outcome : Outcome}
    (hhandle : ∀ {s s' b outcome}, I s → Q b → handle s b = some (outcome, s') → I s' ∧ (outcome = .threw → throws)) (hs : I s)
    (hswitch : Switched N handle s altChain discard outcome s') : I s' ∧ (outcome = .threw → throws) := by
  -- down to the fork and up as far as the alternative blocks go
  have hconnect : ∀ {splitHeight disconnected s₁ s₂ c}, ForkedFor N s altChain splitHeight disconnected s₁ →
      s₁.connect N altChain = (c, s₂) → I s₂ ∧ (c = .threw → throws) := by
    intro splitHeight disconnected s₁ s₂ c hfork hup
    obtain ⟨-, -, hI, -, hforks⟩ := h.forkedAt hs hfork.toForkedAt
    obtain ⟨hI₂, hret⟩ := h.connect altChain hI (by
      intro k hk
      rw [Node.alternativeAt, Node.findAlternative, hforks.alts]
      exact hfork.versions k hk)
    rw [hup] at hI₂ hret
    refine ⟨hI₂, ?_⟩
    intro hc
    rw [hc] at hret
    exact hret s₂ rfl
  have hrollback : ∀ {splitHeight disconnected s₁ s₂ s₃ rest o}, ForkedFor N s altChain splitHeight disconnected s₁ →
      s₁.connect N altChain = (.failed rest, s₂) →
      s₂.rollbackBlockchainSwitching N disconnected splitHeight = (o, s₃) → I s₃ ∧ (o = .threw → throws) := by
    intro splitHeight disconnected s₁ s₂ s₃ rest o hfork hup hroll
    obtain ⟨hle, hlt, -, hQ, -⟩ := h.forkedAt hs hfork.toForkedAt
    have hI₂ := (hconnect hfork hup).1
    have hpos := (h.ok hI₂).built.pos
    have hre := h.reconnect disconnected (h.pops (s₂.db.getChainHeight - splitHeight) hI₂ (by omega)) hQ
    rw [Node.rollbackBlockchainSwitching] at hroll
    rw [hroll] at hre
    exact hre
  have hback : ∀ {splitHeight disconnected s₁ s₂ s₃ o}, ForkedFor N s altChain splitHeight disconnected s₁ →
      s₁.connect N altChain = (.all, s₂) → L4.handBack handle s₂ disconnected = some (o, s₃) → I s₃ ∧ (o = .threw → throws) := by
    intro splitHeight disconnected s₁ s₂ s₃ o hfork hup hhanded
    obtain ⟨-, -, -, hQ, -⟩ := h.forkedAt hs hfork.toForkedAt
    exact CallInv.handBack hhandle (hconnect hfork hup).1 hQ hhanded
  cases hswitch with
  | refused => exact ⟨hs, by simp⟩
  | connectThrew hfork hup => exact ⟨(hconnect hfork hup).1, fun _ => (hconnect hfork hup).2 rfl⟩
  | rollbackThrew hfork hup hroll => exact hrollback hfork hup hroll
  | rolledBack hfork hup hroll => exact ⟨h.erase _ (hrollback hfork hup hroll).1, by simp⟩
  | discarded _ hfork hup => exact ⟨h.clear (h.erase _ (hconnect hfork hup).1), by simp⟩
  | handBackThrew _ hfork hup hhanded => exact hback hfork hup hhanded
  | handedBack _ hfork hup hhanded => exact ⟨h.clear (h.erase _ (hback hfork hup hhanded).1), by simp⟩

theorem CallInv.handled (h : CallInv N I Q throws) :
    ∀ (fuel : Nat) {s s' : Node} {b : Block} {prevalidated : Option Hash}
    {outcome : Outcome}, I s → Q b →
    handleAlternativeBlock N fuel s b (N.prims.getBlockHash b) prevalidated = some (outcome, s') →
    I s' ∧ (outcome = .threw → throws)
  | 0, _, _, _, _, _, _, _, hcall => by cases hcall
  | fuel + 1, s, s', b, prevalidated, outcome, hs, hb, hcall => by
    rw [handleAlternativeBlock] at hcall
    cases handleWith_cases hcall with
    | unchanged => exact ⟨hs, by simp⟩
    | recorded => exact ⟨h.record hs hb, by simp⟩
    | stored haccepted _ hinsert => exact ⟨h.insert hs hb haccepted hinsert, by simp⟩
    | switched haccepted _ hinsert hswitch =>
      exact h.switched (fun hs hb hcall => h.handled fuel hs hb hcall) (h.insert hs hb haccepted hinsert)
        (switchWith_cases hswitch)

theorem CallInv.offered (h : CallInv N I Q throws) {b : Block} {outcome : Outcome} (hs : I s) (hb : Q b)
    (hcall : Offered N s b outcome s') : I s' ∧ (outcome = .threw → throws) := by
  cases hcall with
  | refused => exact ⟨hs, by simp⟩
  | pushed _ _ hpre => exact h.push hs hb hpre
  | handled fuel _ _ _ hcall => exact h.handled fuel hs hb hcall

end CallInv

/-! ## Blocks that were offered -/

/-- All blocks on the main chain and among the alternatives are in `Q`. -/
structure BlocksIn (Q : Block → Prop) (s : Node) : Prop where
  main : ∀ sb ∈ s.db.storedBlocks, Q sb.block
  alts : ∀ x ∈ s.alternativeChains.entries, Q x.2.bl

/-- A node starts with genesis and no alternative blocks. -/
theorem guarded_init {G : Guards} (h : (guardedLts N G).Init s) : BlocksIn G.genesis s ∧ SameForks Node.new s := by
  obtain ⟨genesis, hgenesis, -, hpush⟩ := h
  obtain ⟨hforks, sb, rfl, hm⟩ := genesis_spec hpush
  refine ⟨⟨?_, ?_⟩, hforks⟩
  · intro sb' hsb'
    rw [hm.storedBlocks] at hsb'
    rw [List.mem_singleton.mp hsb']
    exact hgenesis
  · intro x hx
    rw [hforks.alts] at hx
    cases hx

theorem BlocksIn.pool {Q : Block → Prop} (h : BlocksIn Q s) (hcall : PoolCall N s s') : BlocksIn Q s' := by
  refine ⟨?_, ?_⟩
  · rw [hcall.step.db]
    exact h.main
  · rw [hcall.step.alts]
    exact h.alts

theorem alternativeAt_mem {k : Hash} (h : checkBlockVersion (s.alternativeAt k).bl = true) :
    (k, s.alternativeAt k) ∈ s.alternativeChains.entries := by
  unfold Node.alternativeAt Node.findAlternative at h ⊢
  cases hf : s.alternativeChains.find k with
  | some x =>
    obtain ⟨hmem, hkey⟩ := MultiIndex.find_eq_some.mp hf
    rw [← hkey]
    exact hmem
  | none =>
    rw [hf] at h
    exact absurd h (by decide)

/-- The chain is in order, every alternative block is above genesis, and all blocks are in
`Q`. -/
structure Steady (N : NodeEnv) (Q : Block → Prop) (s : Node) : Prop where
  ok : NodeOk N s
  above : AltAbove 1 s
  blocks : BlocksIn Q s

/-- Only the alternative blocks and the record of a refused fork have changed. -/
theorem NodeOk.aside (h : NodeOk N s) (hdb : s'.db = s.db) (hpool : s'.pool = s.pool) (hreads : s'.reads = s.reads) :
    NodeOk N s' := by
  rw [NodeOk, hdb, hpool, hreads]
  exact h

/-- Blocks only come from those that were offered. -/
theorem Steady.callInv (N : NodeEnv) (Q : Block → Prop) : CallInv N (Steady N Q) Q True where
  ok h := h.ok
  push := by
    intro s b prevalidated ⟨hok, habove, hin⟩ hb hpre
    have hpos := hok.built.pos
    obtain ⟨hbeat, hforks⟩ := pushBlock_beat 1 hok hpre
    have hspec := (pushBlock_spec hok.pool (by omega) hpre).2
    refine ⟨⟨hbeat.micro.ok hok, habove.of_eq hforks.alts, ?_, ?_⟩, fun _ => trivial⟩
    · generalize s.pushBlock N b (N.prims.getBlockHash b) prevalidated = r at hspec
      obtain ⟨outcome, s₁⟩ := r
      cases hspec with
      | pushed hblock hm =>
        intro sb hsb
        rw [hm.storedBlocks, List.mem_append, List.mem_singleton] at hsb
        rcases hsb with hsb | rfl
        · exact hin.main sb hsb
        · rw [hblock]
          exact hb
      | refused hdb =>
        simp only at hdb
        rw [hdb]
        exact hin.main
      | threw hdb =>
        simp only at hdb
        rw [hdb]
        exact hin.main
    · rw [hforks.alts]
      exact hin.alts
  pop := by
    intro s ⟨hok, habove, hin⟩ hlen
    obtain ⟨hlater, hok', sb, hm, hdata⟩ := popBlock_spec hok hlen
    have hblocks := hm.storedBlocks
    refine ⟨⟨hok', habove.of_eq hlater.alts, ?_, ?_⟩, ?_⟩
    · intro sb' hsb'
      exact hin.main sb' (by rw [hblocks]; simp [hsb'])
    · rw [hlater.alts]
      exact hin.alts
    · intro b hb
      rw [hdata, Option.mem_some] at hb
      rw [← hb]
      exact hin.main sb (by rw [hblocks]; simp)
  alt := by
    intro s k ⟨_, habove, hin⟩ hversion
    have hmem := alternativeAt_mem hversion
    exact ⟨hin.alts _ hmem, habove _ hmem⟩
  insert := by
    intro s s' b prevalidated br bei isACheckpoint ⟨hok, habove, hin⟩ hb haccepted hinsert
    have hallowed := haccepted.allowed
    have hheight : 1 ≤ bei.height := by
      rw [haccepted.height]
      unfold Checkpoints.isAlternativeBlockAllowed at hallowed
      split at hallowed
      · cases hallowed
      · omega
    have habove' := habove.insert hheight hinsert
    obtain ⟨alts, halts, rfl⟩ := insertAlternative_some hinsert
    refine ⟨hok, habove', hin.main, ?_⟩
    intro x hx
    rcases (MultiIndex.mem_insert halts).mp hx with rfl | hx
    · obtain ⟨-, rfl, -⟩ := haccepted.entry
      exact hb
    · exact hin.alts x hx
  record := fun ⟨hok, habove, hin⟩ _ => ⟨hok, habove, hin.main, hin.alts⟩
  erase := by
    intro s hashes ⟨hok, habove, hin⟩
    obtain ⟨hdb, hpool, hreads, hmem⟩ := eraseAlternatives_frame hashes s
    refine ⟨hok.aside hdb hpool hreads, habove.erase hashes, ?_, ?_⟩
    · rw [hdb]
      exact hin.main
    · intro x hx
      exact hin.alts x ((hmem x).mp hx).1
  clear := fun ⟨hok, habove, hin⟩ => ⟨hok, habove, hin.main, hin.alts⟩

/-- A rollback only removes blocks. -/
theorem mem_storedBlocks_rollback (hs : NodeOk N s) {height : Nat} {sb : StoredBlock}
    (hsb : sb ∈ (s.rollbackBlockchainTo N height).db.storedBlocks) : sb ∈ s.db.storedBlocks := by
  have hpos := hs.built.pos
  have hb := hs.built.removeBlocks (s.db.getChainHeight - (height + 1)) (by omega)
  rw [Node.rollbackBlockchainTo] at hsb
  simp only at hsb
  rw [hb.storedBlocks] at hsb
  exact List.mem_of_mem_take hsb

theorem BlocksIn.rollback {Q : Block → Prop} (h : BlocksIn Q s) (hs : NodeOk N s) (height : Nat) :
    BlocksIn Q (s.rollbackBlockchainTo N height) :=
  ⟨fun sb hsb => h.main sb (mem_storedBlocks_rollback hs hsb), h.alts⟩

theorem resyncToMajority_cases : (s.resyncToMajority N) = (false, s) ∨
    s.finalityForkState.active = true ∧ s.resyncToMajority N =
      (true, { s.rollbackBlockchainTo N s.finalityForkState.divergenceHeight with finalityForkState := .clear }) := by
  unfold Node.resyncToMajority
  dsimp only
  split
  · exact .inl rfl
  rename_i hactive
  split
  · exact .inl rfl
  · exact .inr ⟨not_not.mp hactive, rfl⟩

/-- So all blocks of a run were offered. -/
theorem Steady.of_reachable {G : Guards} {Q : Block → Prop} (hgenesis : ∀ b, G.genesis b → Q b)
    (hoffer : ∀ s b, G.offer s b → Q b) (h : (guardedLts N G).Reachable s) : Steady N Q s := by
  have hinv := node_inv (guarded_node h)
  refine ⟨hinv.ok, hinv.above, ?_⟩
  clear hinv
  induction h with
  | init hinit =>
    obtain ⟨hin, -⟩ := guarded_init hinit
    exact ⟨fun sb hsb => hgenesis _ (hin.main sb hsb), fun x hx => hgenesis _ (hin.alts x hx)⟩
  | @step s s' hreach hstep ih =>
    have hinv := node_inv (guarded_node hreach)
    cases hstep with
    | offer hguard hcall =>
      exact ((Steady.callInv N Q).offered ⟨hinv.ok, hinv.above, ih⟩ (hoffer s _ hguard) hcall.cases).1.blocks
    | pool hcall => exact ih.pool hcall
    | rollback => exact ih.rollback hinv.ok _
    | resync =>
      rcases resyncToMajority_cases (N := N) (s := s) with hsame | ⟨-, hrolled⟩
      · rw [hsame]
        exact ih
      · rw [hrolled]
        have hin := ih.rollback hinv.ok s.finalityForkState.divergenceHeight
        exact ⟨hin.main, hin.alts⟩

/-- A property of chain and pool alone need only be kept by pushes and pops. -/
theorem CallInv.and {I J : Node → Prop} {Q : Block → Prop} {throws throws' : Prop} (h : CallInv N I Q throws)
    (hpush : ∀ {s b prevalidated}, I s → J s → Q b →
      (∀ p ∈ prevalidated, N.prims.prevalidateBlockProofOfWork b = some p) →
      J (s.pushBlock N b (N.prims.getBlockHash b) prevalidated).2 ∧
        ((s.pushBlock N b (N.prims.getBlockHash b) prevalidated).1 = .threw → throws'))
    (hpop : ∀ {s}, I s → J s → 1 < s.db.getChainHeight → J (s.popBlock N))
    (haside : ∀ {s s' : Node}, J s → s'.db = s.db → s'.pool = s.pool → J s') :
    CallInv N (fun s => I s ∧ J s) Q throws' where
  ok hs := h.ok hs.1
  push hs hb hpre := ⟨⟨(h.push hs.1 hb hpre).1, (hpush hs.1 hs.2 hb hpre).1⟩, (hpush hs.1 hs.2 hb hpre).2⟩
  pop hs hlen := ⟨⟨(h.pop hs.1 hlen).1, hpop hs.1 hs.2 hlen⟩, (h.pop hs.1 hlen).2⟩
  alt hs hversion := h.alt hs.1 hversion
  insert := by
    intro s s' b prevalidated br bei isACheckpoint hs hb haccepted hinsert
    refine ⟨h.insert hs.1 hb haccepted hinsert, ?_⟩
    obtain ⟨alts, -, rfl⟩ := insertAlternative_some hinsert
    exact haside hs.2 rfl rfl
  record hs hb := ⟨h.record hs.1 hb, haside hs.2 rfl rfl⟩
  erase := by
    intro s hashes hs
    obtain ⟨hdb, hpool, -, -⟩ := eraseAlternatives_frame hashes s
    exact ⟨h.erase hashes hs.1, haside hs.2 hdb hpool⟩
  clear hs := ⟨h.clear hs.1, haside hs.2 rfl rfl⟩

/-! ## While no tag is repeated -/

/-- No transaction that is moved between chain and pool repeats a tag. -/
theorem Micro.distinct {floor : Nat} (h : Micro N floor s s') (hs : DistinctTags N.P s.pool.view) :
    DistinctTags N.P s'.pool.view := by
  cases h with
  | push _ hm =>
    rw [hm.moved]
    exact hs.sub (Sub.removeAll _ _)
  | @pop sb _ _ _ hm =>
    -- what comes back was on the chain, where the table of spent tags keeps tags apart
    intro k tx hk
    rw [hm.view_eq] at hk
    rcases Option.or_eq_some_iff.mp hk with hk | ⟨-, hk⟩
    · have hsnd := hm.pushed.undoable.sized.snd N.P
      have hmem : tx ∈ (sb.transactions N.P).map Prod.snd := by
        rw [hsnd]
        exact List.mem_cons_of_mem _ (List.mem_of_find?_eq_some hk)
      obtain ⟨x, hx, rfl⟩ := List.mem_map.mp hmem
      exact hm.pushed.undoable.fresh.nodup x hx
    · exact hs k tx hk
  | still _ _ hsub => exact hs.sub hsub

theorem loadsSafely_of_distinct : ∀ (ids : List Hash) {view : View}, DistinctTags N.P view →
    loadsSafely N.P view true ids = true
  | [], _, _ => rfl
  | id :: ids, view, h => by
    rw [loadsSafely]
    split
    · rfl
    · rename_i tx htx
      rw [decide_eq_true (h id tx htx), Bool.and_true]
      refine loadsSafely_of_distinct ids (h.sub ?_)
      intro k t hk
      rw [Table.remove_apply] at hk
      split at hk
      · cases hk
      · exact hk

/-- What makes pushing safe. -/
structure Calm (N : NodeEnv) (s : Node) : Prop where
  ok : NodeOk N s
  above : AltAbove 1 s
  indexed : Indexed N.P s.pool
  distinct : DistinctTags N.P s.pool.view

theorem Calm.of_reachable (h : (nodeLts N).Reachable s) (hdistinct : DistinctTags N.P s.pool.view) : Calm N s :=
  ⟨(node_inv h).ok, (node_inv h).above, node_indexed h, hdistinct⟩

/-- While no transaction of the pool repeats a tag no call throws, and blocks only come
from those that were offered. -/
theorem Calm.callInv (N : NodeEnv) (Q : Block → Prop) : CallInv N (fun s => Calm N s ∧ BlocksIn Q s) Q False := by
  have hand : CallInv N (fun s => Steady N Q s ∧ (Indexed N.P s.pool ∧ DistinctTags N.P s.pool.view)) Q False := by
    refine (Steady.callInv N Q).and ?_ ?_ ?_
    · intro s b prevalidated hs ⟨hindexed, hdistinct⟩ _ hpre
      have hbeat := (pushBlock_beat 1 hs.ok hpre).1
      have hthrew := pushBlock_threw_iff hs.ok.pool hindexed b (N.prims.getBlockHash b) prevalidated
      rw [loadsSafely_of_distinct _ hdistinct] at hthrew
      exact ⟨⟨hbeat.moves.indexed hindexed, hbeat.micro.distinct hdistinct⟩, fun h => Bool.noConfusion (hthrew.mp h)⟩
    · intro s hs ⟨hindexed, hdistinct⟩ hlen
      obtain ⟨hlater, hok, sb, hm, -⟩ := popBlock_spec hs.ok hlen
      have hbeat : Beat N 1 s (s.popBlock N) := ⟨.pop hlater.toOnward hlen hok hm, popBlock_moves s⟩
      exact ⟨hbeat.moves.indexed hindexed, hbeat.micro.distinct hdistinct⟩
    · intro s s' hs _ hpool
      rw [hpool]
      exact hs
  have hsame : (fun s => Calm N s ∧ BlocksIn Q s) =
      fun s => Steady N Q s ∧ (Indexed N.P s.pool ∧ DistinctTags N.P s.pool.view) := by
    funext s
    refine propext ⟨?_, ?_⟩
    · rintro ⟨⟨hok, habove, hindexed, hdistinct⟩, hin⟩
      exact ⟨⟨hok, habove, hin⟩, hindexed, hdistinct⟩
    · rintro ⟨⟨hok, habove, hin⟩, hindexed, hdistinct⟩
      exact ⟨⟨hok, habove, hindexed, hdistinct⟩, hin⟩
  rw [hsame]
  exact hand

/-! ### Runs -/

/-- Blocks offered one after the other, each only if `check` lets it pass. -/
def offerBlocks (N : NodeEnv) (check : Node → Block → Bool) (fuel : Nat) (genesis : Block) (l : List Block) :
    Option Node :=
  match Node.new.pushBlock N genesis (N.prims.getBlockHash genesis) none with
  | (.returned true, s) =>
    l.foldlM (fun s b => if check s b then (addNewBlock N fuel s b none).map Prod.snd else none) s
  | _ => none

theorem offerBlocks_run {G : Guards} {check : Node → Block → Bool} {fuel : Nat} {genesis : Block} {l : List Block}
    (hg : genesis.transactionHashes = []) (hgenesis : G.genesis genesis)
    (hcheck : ∀ s, ∀ b ∈ l, check s b = true → G.offer s b) (h : offerBlocks N check fuel genesis l = some s) :
    (guardedLts N G).Reachable s := by
  unfold offerBlocks at h
  split at h
  · rename_i s₀ hpush
    refine foldlM_some (fun s b s₁ hb hs h₁ => ?_) (.init ⟨genesis, hgenesis, hg, hpush⟩) h
    split at h₁
    · rename_i hpass
      obtain ⟨⟨outcome, s₁'⟩, hcall, rfl⟩ := Option.map_eq_some_iff.mp h₁
      have hstep : GuardedStep N G s s₁' := .offer (hcheck s b hb hpass) (.mk fuel none (by simp) hcall)
      exact hs.step hstep
    · cases h₁
  · cases h

theorem distinct_of_empty {P : Primitives} {p : Pool} (h : p.transactions.entries = []) : DistinctTags P p.view := by
  intro id tx hv
  obtain ⟨d, hd, -⟩ := Option.map_eq_some_iff.mp hv
  have := (MultiIndex.find_eq_some.mp hd).1
  rw [h] at this
  cases this

end Discrete.L4
