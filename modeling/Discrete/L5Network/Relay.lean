import Discrete.Core.Machine

/-!
# Relaying notifications (`NetNode.cpp`)

A handler relays what it has got by spawning a task on the dispatcher. The task is told the
connection to leave out by a pointer to `m_connection_id` inside the connection's context, and
reads it when it runs. The context lives in `m_connections` until its own handler ends, and
nothing ties the two together.

Contexts are known by their address, which is not given twice: an object is alive while its
address is in `connections`. `danglingRead` records a read through the address of a context
that has been erased; what such a read yields is up to the event. `sent` has each message with
the connection it came from, if any.

* `closed_before_relay`: a connection that is closed between a notification and the task that
  relays it is read after it is gone. `relay_block` leaves no one out, so a block goes back to
  the peer it came from.
* `relay_safe`: where a connection with a waiting task is not closed and blocks of peers are
  not relayed that way, every read is of a live context, and nothing goes back.
-/
namespace Discrete.L5
open List

/-! ## State -/

inductive PeerState where
  | beforeHandshake | synchronizing | idle | normal | syncRequired | poolSyncRequired | shutdown
  deriving DecidableEq

structure Connection where
  connectionId : Nat
  peerId : Nat
  state : PeerState
  version : Nat
  deriving DecidableEq

/-- A task on the dispatcher; `origin` is the connection the notification came from. -/
inductive RelayTask where
  | toAll (excludeConnection : Option Nat) (origin : Option Nat)
  | toList (relayList : List Nat) (origin : Option Nat)
  deriving DecidableEq

def RelayTask.excluded : RelayTask → Option Nat
  | .toAll excludeConnection _ => excludeConnection
  | .toList .. => none

structure Sent where
  dest : Nat
  origin : Option Nat
  deriving DecidableEq

structure NetState where
  /-- Contexts by address. -/
  connections : List (Nat × Connection)
  /-- The next address. -/
  allocated : Nat
  tasks : List RelayTask
  danglingRead : Bool
  sent : List Sent
  deriving DecidableEq

def NetState.new : NetState := ⟨[], 0, [], false, []⟩

def p2pLiteBlocksPropagationVersion : Nat := 3

/-- Messages are pushed only to peers that have shaken hands. -/
def Connection.listens (c : Connection) : Bool := decide (c.peerId ≠ 0 ∧ (c.state = .normal ∨ c.state = .synchronizing))

/-! ## Relays -/

/-- mirrors NetNode.cpp:1201-1211 -/
def NetState.relayNotifyToAll (s : NetState) (excludeId : Nat) (origin : Option Nat) : NetState :=
  { s with sent := s.sent ++ ((s.connections.map Prod.snd).filter fun c =>
      c.listens && decide (c.connectionId ≠ excludeId)).map fun c => ⟨c.connectionId, origin⟩ }

/-- mirrors NetNode.cpp:296-306 -/
def NetState.relayNotifyToList (s : NetState) (relayList : List Nat) (origin : Option Nat) : NetState :=
  { s with sent := s.sent ++ ((s.connections.map Prod.snd).filter fun c =>
      c.listens && decide (c.connectionId ∈ relayList)).map fun c => ⟨c.connectionId, origin⟩ }

/-- A task runs. Without a pointer the id left out is the nil id, 0; `garbage` is what a read
of a dead context yields. -/
def NetState.runTask (s : NetState) (garbage : Nat) : RelayTask → NetState
  | .toAll none origin => s.relayNotifyToAll 0 origin
  | .toAll (some p) origin =>
    match s.connections.lookup p with
    | some c => s.relayNotifyToAll c.connectionId origin
    | none => { s with danglingRead := true }.relayNotifyToAll garbage origin
  | .toList l origin => s.relayNotifyToList l origin

/-- mirrors CryptoNoteProtocolHandler.cpp:1227-1265 -/
def NetState.relayBlock (s : NetState) (origin : Option Nat) : List RelayTask :=
  let lite := (s.connections.map Prod.snd).filter fun c => decide (c.version ≥ p2pLiteBlocksPropagationVersion)
  let normal := (s.connections.map Prod.snd).filter fun c => decide (¬ c.version ≥ p2pLiteBlocksPropagationVersion)
  (if lite = [] then [] else [.toList (lite.map Connection.connectionId) origin]) ++
    if normal = [] then [] else [.toAll none origin]

/-- What a peer's notification may be relayed as. Transactions and lite blocks take the same
call. -/
inductive Notification where
  | newTransactions | newLiteBlock | newBlock
  deriving DecidableEq

/-- mirrors CryptoNoteProtocolHandler.cpp:64-66, 383-387, 492-505, 980-984 -/
def NetState.relayed (s : NetState) (p : Nat) (c : Connection) : Notification → List RelayTask
  | .newTransactions => [.toAll (some p) (some c.connectionId)]
  | .newLiteBlock => [.toAll (some p) (some c.connectionId)]
  | .newBlock => s.relayBlock (some c.connectionId)

/-! ## The machine -/

inductive NetEvent where
  /-- A connection is accepted or made. -/
  | opened (connectionId version : Nat)
  /-- The handshake, and every change of `m_state`. -/
  | changed (p : Nat) (peerId : Nat) (state : PeerState)
  /-- The handler of `p` relays a notification. -/
  | notified (p : Nat) (n : Notification)
  /-- The handler of `p` passes a stem transaction to a chosen peer other than its own. -/
  | postedStem (p : Nat) (dest : Nat)
  /-- What the node relays by itself: `relay_transactions`, `fluffStemPool`, its own blocks. -/
  | ownToAll
  | ownToList (relayList : List Nat)
  | ownBlock
  /-- The handler of `p` ends. -/
  | closed (p : Nat)
  | ran (i : Nat) (garbage : Nat)
  deriving DecidableEq

def netStep (s : NetState) : NetEvent → Option NetState
  | .opened connectionId version =>
    some { s with
      connections := (s.allocated, ⟨connectionId, 0, .beforeHandshake, version⟩) :: s.connections
      allocated := s.allocated + 1 }
  | .changed p peerId state =>
    some { s with connections := s.connections.map fun x =>
      if x.1 = p then (x.1, { x.2 with peerId := peerId, state := state }) else x }
  | .notified p n => (s.connections.lookup p).map fun c => { s with tasks := s.tasks ++ s.relayed p c n }
  | .postedStem p dest =>
    match s.connections.lookup p with
    | none => none
    | some c =>
      if dest = c.connectionId then none
      else if (s.connections.map Prod.snd).any (fun q => q.connectionId = dest) then
        some { s with sent := s.sent ++ [⟨dest, some c.connectionId⟩] }
      else some s
  | .ownToAll => some { s with tasks := s.tasks ++ [.toAll none none] }
  | .ownToList l => some { s with tasks := s.tasks ++ [.toList l none] }
  | .ownBlock => some { s with tasks := s.tasks ++ s.relayBlock none }
  | .closed p => some { s with connections := s.connections.filter fun x => x.1 ≠ p }
  | .ran i garbage =>
    s.tasks[i]?.map fun t => { s.runTask garbage t with tasks := s.tasks.eraseIdx i }

def netMachine : Machine NetState NetEvent where
  Init s := s = .new
  step := netStep

/-- A connection that a task is to leave out stays open until the task has run, and no block
of a peer is relayed. -/
def RelayGuard (s : NetState) : NetEvent → Prop
  | .closed p => ∀ t ∈ s.tasks, t.excluded ≠ some p
  | .notified _ n => n ≠ .newBlock
  | _ => True

/-! ## Contexts -/

theorem lookup_filter_ne {p q : Nat} (hne : q ≠ p) : ∀ l : List (Nat × Connection),
    (l.filter fun x => x.1 ≠ p).lookup q = l.lookup q
  | [] => rfl
  | (r, c) :: l => by
    by_cases hr : r = p
    · subst hr
      have hq : (q == r) = false := by simpa using hne
      rw [filter_cons_of_neg (by simp), lookup_filter_ne hne l, lookup_cons, hq]
    · rw [filter_cons_of_pos (by simpa using hr), lookup_cons, lookup_cons, lookup_filter_ne hne l]

/-- A change that keeps the addresses. -/
theorem lookup_map {g : Nat × Connection → Nat × Connection} (hg : ∀ x, (g x).1 = x.1) {q : Nat} {c : Connection} :
    ∀ {l : List (Nat × Connection)}, l.lookup q = some c → (l.map g).lookup q = some (g (q, c)).2
  | (r, d) :: l, h => by
    have hkey : g (r, d) = (r, (g (r, d)).2) := Prod.ext (hg (r, d)) rfl
    rw [map_cons, hkey, lookup_cons]
    rw [lookup_cons] at h
    cases hq : q == r with
    | true =>
      obtain rfl := eq_of_beq hq
      simp only [hq, Option.some.injEq] at h
      rw [h]
    | false =>
      simp only [hq] at h
      exact lookup_map hg h

/-! ## Runs -/

section Runs
variable {s s' : NetState}

/-- The pointer of a task is to a live context, with the id the notification came from; tasks
without one are the node's own. -/
def TaskOk (s : NetState) : RelayTask → Prop
  | .toAll none origin => origin = none
  | .toAll (some p) origin => ∃ c, s.connections.lookup p = some c ∧ origin = some c.connectionId
  | .toList _ origin => origin = none

structure NetInv (s : NetState) : Prop where
  addresses : ∀ x ∈ s.connections, x.1 < s.allocated
  tasks : ∀ t ∈ s.tasks, TaskOk s t
  alive : s.danglingRead = false
  noEcho : ∀ m ∈ s.sent, m.origin ≠ some m.dest

theorem TaskOk.frame {t : RelayTask} (h : TaskOk s t)
    (hlookup : ∀ p origin c, t = .toAll (some p) origin → s.connections.lookup p = some c →
      ∃ c', s'.connections.lookup p = some c' ∧ c'.connectionId = c.connectionId) : TaskOk s' t := by
  match t, h with
  | .toAll none _, h => exact h
  | .toList _ _, h => exact h
  | .toAll (some p) origin, ⟨c, hc, hid⟩ =>
    obtain ⟨c', hc', hid'⟩ := hlookup p origin c rfl hc
    exact ⟨c', hc', by rw [hid, hid']⟩

theorem lookup_address {p : Nat} {c : Connection} : ∀ {l : List (Nat × Connection)}, l.lookup p = some c → (p, c) ∈ l
  | (q, d) :: l, h => by
    rw [lookup_cons] at h
    cases hq : p == q with
    | true =>
      simp only [hq, Option.some.injEq] at h
      rw [eq_of_beq hq, h]
      exact mem_cons_self
    | false =>
      simp only [hq] at h
      exact mem_cons_of_mem _ (lookup_address h)

/-- New messages of a relay are not for `origin` if those who get them are not. -/
theorem noEcho_append {origin : Option Nat} {keep : Connection → Bool} (h : ∀ m ∈ s.sent, m.origin ≠ some m.dest)
    (hkeep : ∀ c, keep c = true → origin ≠ some c.connectionId) :
    ∀ m ∈ s.sent ++ ((s.connections.map Prod.snd).filter keep).map (fun c => (⟨c.connectionId, origin⟩ : Sent)),
      m.origin ≠ some m.dest := by
  intro m hm
  rcases mem_append.mp hm with hm | hm
  · exact h m hm
  · obtain ⟨c, hc, rfl⟩ := List.mem_map.mp hm
    exact hkeep c (mem_filter.mp hc).2

theorem NetInv.runTask (h : NetInv s) {t : RelayTask} (ht : TaskOk s t) (garbage : Nat) :
    (s.runTask garbage t).danglingRead = false ∧ (∀ m ∈ (s.runTask garbage t).sent, m.origin ≠ some m.dest) ∧
      (s.runTask garbage t).connections = s.connections ∧ (s.runTask garbage t).allocated = s.allocated := by
  match t, ht with
  | .toAll none origin, ht =>
    obtain rfl : origin = none := ht
    exact ⟨h.alive, noEcho_append h.noEcho (fun _ _ => nofun), rfl, rfl⟩
  | .toList l origin, ht =>
    obtain rfl : origin = none := ht
    exact ⟨h.alive, noEcho_append h.noEcho (fun _ _ => nofun), rfl, rfl⟩
  | .toAll (some p) origin, ⟨c, hc, hid⟩ =>
    have hrun : s.runTask garbage (.toAll (some p) origin) = s.relayNotifyToAll c.connectionId origin := by
      simp only [NetState.runTask, hc]
    rw [hrun]
    refine ⟨h.alive, noEcho_append h.noEcho fun d hd => ?_, rfl, rfl⟩
    rw [Bool.and_eq_true, decide_eq_true_eq] at hd
    rw [hid]
    exact fun e => hd.2 (Option.some.inj e).symm

theorem relayBlock_own {t : RelayTask} (h : t ∈ s.relayBlock none) (s' : NetState) : TaskOk s' t := by
  rcases mem_append.mp h with h | h
  · split at h
    · cases h
    · rw [mem_singleton.mp h]
      rfl
  · split at h
    · cases h
    · rw [mem_singleton.mp h]
      rfl

/-- More tasks. -/
theorem NetInv.spawn (h : NetInv s) {l : List RelayTask} (hl : ∀ t ∈ l, TaskOk s t) :
    NetInv { s with tasks := s.tasks ++ l } := by
  refine ⟨h.addresses, fun t ht => ?_, h.alive, h.noEcho⟩
  rcases mem_append.mp ht with ht | ht
  · exact (h.tasks t ht).frame fun _ _ c _ hc => ⟨c, hc, rfl⟩
  · exact (hl t ht).frame fun _ _ c _ hc => ⟨c, hc, rfl⟩

theorem NetInv.event (h : NetInv s) {e : NetEvent} (hg : RelayGuard s e) (hstep : netStep s e = some s') :
    NetInv s' := by
  cases e with
  | opened connectionId version =>
    cases hstep
    refine ⟨fun x hx => ?_, fun t ht => (h.tasks t ht).frame fun p _ c _ hc => ⟨c, ?_, rfl⟩, h.alive, h.noEcho⟩
    · rcases mem_cons.mp hx with rfl | hx
      · exact Nat.lt_succ_self _
      · exact Nat.lt_succ_of_lt (h.addresses x hx)
    · have hlt := h.addresses _ (lookup_address hc)
      have hp : (p == s.allocated) = false := by simpa using Nat.ne_of_lt hlt
      rw [lookup_cons, hp]
      exact hc
  | changed p peerId state =>
    cases hstep
    refine ⟨fun x hx => ?_, fun t ht => (h.tasks t ht).frame fun _ _ c _ hc => ⟨_, lookup_map ?_ hc, ?_⟩, h.alive, h.noEcho⟩
    · obtain ⟨y, hy, rfl⟩ := List.mem_map.mp hx
      have hlt := h.addresses y hy
      split
      · exact hlt
      · exact hlt
    · intro x
      dsimp only
      split <;> rfl
    · dsimp only
      split <;> rfl
  | notified p n =>
    obtain ⟨c, hc, rfl⟩ := Option.map_eq_some_iff.mp hstep
    refine h.spawn fun t ht => ?_
    cases n with
    | newTransactions => exact mem_singleton.mp ht ▸ ⟨c, hc, rfl⟩
    | newLiteBlock => exact mem_singleton.mp ht ▸ ⟨c, hc, rfl⟩
    | newBlock => exact absurd rfl hg
  | postedStem p dest =>
    simp only [netStep] at hstep
    split at hstep
    · cases hstep
    rename_i c hc
    split at hstep
    · cases hstep
    rename_i hne
    split at hstep
    · cases hstep
      refine ⟨h.addresses, fun t ht => (h.tasks t ht).frame fun _ _ c _ hc => ⟨c, hc, rfl⟩, h.alive, fun m hm => ?_⟩
      rcases mem_append.mp hm with hm | hm
      · exact h.noEcho m hm
      · rw [mem_singleton.mp hm]
        exact fun e => hne (Option.some.inj e).symm
    · cases hstep
      exact h
  | ownToAll =>
    cases hstep
    exact h.spawn fun t ht => mem_singleton.mp ht ▸ rfl
  | ownToList l =>
    cases hstep
    exact h.spawn fun t ht => mem_singleton.mp ht ▸ rfl
  | ownBlock =>
    cases hstep
    exact h.spawn fun t ht => relayBlock_own ht s
  | closed p =>
    cases hstep
    refine ⟨fun x hx => h.addresses x (mem_filter.mp hx).1, fun t ht => ?_, h.alive, h.noEcho⟩
    refine (h.tasks t ht).frame fun q origin c e hc => ⟨c, ?_, rfl⟩
    have hne : q ≠ p := by
      intro hqp
      subst hqp
      exact hg t ht (by rw [e]; rfl)
    exact (lookup_filter_ne hne _).trans hc
  | ran i garbage =>
    obtain ⟨t, ht, rfl⟩ := Option.map_eq_some_iff.mp hstep
    obtain ⟨halive, hecho, hconn, halloc⟩ := h.runTask (h.tasks t (mem_of_getElem? ht)) garbage
    refine ⟨?_, fun u hu => ?_, halive, hecho⟩
    · show ∀ x ∈ (s.runTask garbage t).connections, x.1 < (s.runTask garbage t).allocated
      rw [hconn, halloc]
      exact h.addresses
    · refine (h.tasks u (mem_of_mem_eraseIdx hu)).frame fun _ _ c _ hc => ⟨c, ?_, rfl⟩
      show (s.runTask garbage t).connections.lookup _ = some c
      rw [hconn]
      exact hc

/-- Every read of an excluded id is of a live context, and nothing is relayed to where it
came from. -/
theorem relay_safe (h : (netMachine.lts RelayGuard).Reachable s) :
    s.danglingRead = false ∧ ∀ m ∈ s.sent, m.origin ≠ some m.dest := by
  suffices hinv : NetInv s from ⟨hinv.alive, hinv.noEcho⟩
  refine (Machine.inductive_of_step ?_ ?_).reachable h
  · intro s hs
    obtain rfl : s = .new := hs
    exact ⟨nofun, nofun, rfl, nofun⟩
  · intro s e s' hs hg hstep
    exact hs.event hg hstep

end Runs

instance (s : NetState) (e : NetEvent) : Decidable (RelayGuard s e) := by
  cases e <;> unfold RelayGuard <;> infer_instance

/-- Two peers, ready for relays. -/
def twoPeers : List NetEvent := [.opened 11 3, .changed 0 5 .normal, .opened 12 3, .changed 1 6 .normal]

/-- The first peer sends a transaction and hangs up before it is relayed; the first peer sends
a block. -/
theorem closed_before_relay :
    (∃ s, (netMachine.lts Machine.anyEvent).Reachable s ∧ s.danglingRead = true) ∧
      ∃ s, (netMachine.lts Machine.anyEvent).Reachable s ∧ s.danglingRead = false ∧ (⟨11, some 11⟩ : Sent) ∈ s.sent := by
  have hinit : (netMachine.lts Machine.anyEvent).Reachable .new := .init rfl
  constructor
  · exact Machine.exists_run hinit (twoPeers ++ [.notified 0 .newTransactions, .closed 0, .ran 0 0]) (by decide)
  · exact Machine.exists_run hinit (twoPeers ++ [.notified 0 .newBlock, .ran 0 0]) (by decide)

/-- The peer hangs up after the transaction was relayed. -/
theorem relay_safe_twoPeers :
    ∃ s, (netMachine.lts RelayGuard).Reachable s ∧ s.sent = [⟨12, some 11⟩] ∧ s.danglingRead = false := by
  have hinit : (netMachine.lts RelayGuard).Reachable .new := .init rfl
  obtain ⟨s, hreach, hp⟩ := Machine.exists_run (P := fun s => s.sent = [⟨12, some 11⟩]) hinit
    (twoPeers ++ [.notified 0 .newTransactions, .ran 0 0, .closed 0]) (by decide)
  exact ⟨s, hreach, hp, (relay_safe hreach).1⟩

end Discrete.L5
