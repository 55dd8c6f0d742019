import Discrete.L6Wallet.Synchronizer

/-!
# Announcing new transactions (`WalletGreen.cpp`)

A listener learns of a transaction from a `TRANSACTION_CREATED` event with the index of its history
row. `pushNewTransactionEvents` compares the number of rows with the number at the last
synchronization event, and announces the rows above it. A reorganisation or a transaction that
leaves the pool removes rows anywhere, so that new rows can come to stand below the remembered
number (`row_not_announced`). While no step of the ledger does that, every row that was not there
at load is announced (`new_rows_announced`).
-/
namespace Discrete.L6
open List L1

/-- The ids of the history rows, by index. -/
def Ledger.rows (L : Ledger) : List Hash := L.history.entries.map PqWalletTransaction.txid

structure Announcer where
  ledger : Ledger
  pqNotifiedTxCount : Nat
  /-- The events so far, each with the row that stood at its index. -/
  created : List (Hash × Nat)
  /-- The rows at load. -/
  loaded : List Hash

/-- mirrors WalletGreen.cpp:2129-2147 -/
def Announcer.pushNewTransactionEvents (s : Announcer) : Announcer :=
  let count := s.ledger.rows.length
  if s.pqNotifiedTxCount > count then { s with pqNotifiedTxCount := count }
  else { s with
    created := s.created ++ s.ledger.rows.zipIdx.drop s.pqNotifiedTxCount
    pqNotifiedTxCount := count }

inductive AnnounceEvent where
  | ledger (e : LedgerEvent)
  /-- `onSynchronizationProgressUpdated` or `onSynchronizationCompleted` of an initialized wallet. -/
  | synchronized

section
variable (W : WalletPrimitives) (V : TxView)

/-- A run starts with a restored ledger, whose rows count as announced.
mirrors WalletGreen.cpp:2098-2127, 2426 -/
def announceMachine : Machine Announcer AnnounceEvent where
  Init s := s.pqNotifiedTxCount = s.ledger.rows.length ∧ s.loaded = s.ledger.rows
  step s
    | .ledger e => (s.ledger.step W V e).map fun L => { s with ledger := L }
    | .synchronized => some s.pushNewTransactionEvents

/-- The rows up to the remembered number stay where they are, or no other row is left. -/
def Undisturbed (s : Announcer) : AnnounceEvent → Prop
  | .ledger e => ∀ L ∈ s.ledger.step W V e,
    (s.pqNotifiedTxCount ≤ s.ledger.rows.length ∧ s.ledger.rows.take s.pqNotifiedTxCount <+: L.rows) ∨
      ∀ t ∈ L.rows, t ∈ s.ledger.rows.take s.pqNotifiedTxCount
  | .synchronized => True

instance (s : Announcer) : (e : AnnounceEvent) → Decidable (Undisturbed W V s e)
  | .ledger _ => inferInstanceAs (Decidable (∀ _ ∈ _, _))
  | .synchronized => .isTrue trivial

end

variable {W : WalletPrimitives} {V : TxView} {s : Announcer}

def Announcer.Known (s : Announcer) (t : Hash) : Prop := t ∈ s.loaded ∨ ∃ id, (t, id) ∈ s.created

/-- If the rows up to the remembered number are known, an event makes all known. -/
theorem Announcer.known_pushed (h : ∀ t ∈ s.ledger.rows.take s.pqNotifiedTxCount, s.Known t) :
    ∀ t ∈ s.ledger.rows, s.pushNewTransactionEvents.Known t := by
  intro t ht
  unfold Announcer.pushNewTransactionEvents
  dsimp only
  split
  · rename_i hmore
    rw [take_of_length_le (Nat.le_of_lt hmore)] at h
    exact h t ht
  · obtain ⟨i, hi⟩ := getElem?_of_mem ht
    by_cases hlt : i < s.pqNotifiedTxCount
    · refine (h t (mem_of_getElem? (i := i) ?_)).imp_right fun ⟨id, hid⟩ => ⟨id, mem_append_left _ hid⟩
      rw [getElem?_take_of_lt hlt, hi]
    · refine .inr ⟨i, mem_append_right _ (mem_of_getElem? (i := i - s.pqNotifiedTxCount) ?_)⟩
      rw [getElem?_drop, Nat.add_sub_cancel' (Nat.le_of_not_lt hlt), getElem?_zipIdx, hi]
      simp

theorem Announcer.pushed_ledger (s : Announcer) :
    s.pushNewTransactionEvents.ledger = s.ledger ∧ s.pushNewTransactionEvents.loaded = s.loaded := by
  unfold Announcer.pushNewTransactionEvents
  dsimp only
  split <;> exact ⟨rfl, rfl⟩

theorem new_rows_announced (h : ((announceMachine W V).lts (Undisturbed W V)).Reachable s) :
    ∀ t ∈ s.ledger.rows, t ∈ s.loaded ∨ ∃ id, (t, id) ∈ s.pushNewTransactionEvents.created := by
  have hind : ((announceMachine W V).lts (Undisturbed W V)).Inductive
      fun s => ∀ t ∈ s.ledger.rows.take s.pqNotifiedTxCount, s.Known t := by
    refine Machine.inductive_of_step (fun ⟨hcount, hloaded⟩ t ht => ?_) fun {s e s'} hs hg hstep t ht => ?_
    · rw [hcount, take_length] at ht
      exact .inl (hloaded ▸ ht)
    cases e with
    | ledger e =>
      obtain ⟨L, hL, rfl⟩ := Option.map_eq_some_iff.mp hstep
      rcases hg L hL with ⟨hle, hkept⟩ | hold
      · have hsame := prefix_iff_eq_take.mp hkept
        rw [length_take_of_le hle] at hsame
        exact hs t (hsame ▸ ht)
      · exact hs t (hold t (mem_of_mem_take ht))
    | synchronized =>
      cases hstep
      exact s.known_pushed hs t (s.pushed_ledger.1 ▸ mem_of_mem_take ht)
  intro t ht
  exact s.pushed_ledger.2 ▸ s.known_pushed (hind.reachable h) t ht

/-- Every transaction of this view is a coinbase that pays the wallet. -/
def everyCoinbaseView : TxView := ⟨fun _ => some (toyCoinbaseTx toyKeys.spendPub 5), by rintro _ _ ⟨⟩; decide⟩

def everyCoinbase (txid : Hash) : AnnounceEvent := .ledger (.process txid 5 0)

theorem announcer_init (G : Announcer → AnnounceEvent → Prop) :
    ((announceMachine toyWallet everyCoinbaseView).lts G).Reachable ⟨toyLedger, 0, [], []⟩ :=
  .init ⟨rfl, rfl⟩

theorem new_rows_announced_two :
    ∃ s, ((announceMachine toyWallet everyCoinbaseView).lts (Undisturbed toyWallet everyCoinbaseView)).Reachable s ∧
      s.ledger.rows.length = 2 ∧
      ∀ t ∈ s.ledger.rows, t ∈ s.loaded ∨ ∃ id, (t, id) ∈ s.pushNewTransactionEvents.created := by
  obtain ⟨s, hs, hlen⟩ := Machine.exists_run (P := fun s => s.ledger.rows.length = 2)
    (announcer_init (Undisturbed toyWallet everyCoinbaseView))
    [everyCoinbase (toyHashOf 1), .synchronized, everyCoinbase (toyHashOf 2)] (by decide +kernel)
  exact ⟨s, hs, hlen, new_rows_announced hs⟩

/-- The row of the first transaction was announced at index 0. It goes in a reorganisation, and
that of the second takes its place. -/
theorem row_not_announced :
    ∃ s, ((announceMachine toyWallet everyCoinbaseView).lts Machine.anyEvent).Reachable s ∧
      ∃ t ∈ s.ledger.rows, t ∉ s.loaded ∧ ∀ x ∈ s.pushNewTransactionEvents.created, x.1 ≠ t :=
  Machine.exists_run (announcer_init _)
    [everyCoinbase (toyHashOf 1), .synchronized, .ledger (.rollback 5), everyCoinbase (toyHashOf 2)]
    (by decide +kernel)

end Discrete.L6
