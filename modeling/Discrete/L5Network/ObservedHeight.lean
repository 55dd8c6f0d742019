import Discrete.Core.Machine
import Mathlib.Algebra.Ring.Nat

/-!
# The observed height

`CryptoNoteProtocolHandler` keeps the largest chain height its peers report. A handler passes
the height to `updateObservedHeight` and then stores it with the connection; the maximum is
computed anew only where the connection that held it reports less, or closes.

Two steps lose track (`unreported_height`): `handle_response_chain_entry` stores a height without
the update, and the recalculation leaves out the connection whose new height is stored after it.

* `observed_height_tracks`: in a run without those two steps the observed height is at least
  that of every connection; right after a recalculation it is at most the largest of those
  heights and the local one plus one.
-/
namespace Discrete.L5

structure Peer where
  connectionId : Nat
  handshaken : Bool
  remoteHeight : Nat
  lastResponseHeight : Nat

/-- `recalculated` is a history variable: the last event computed the maximum anew. -/
structure Heights where
  connections : List Peer
  observedHeight : Nat
  localHeight : Nat
  recalculated : Bool

def maxHeight (l : List Peer) (m : Nat) : Nat := l.foldl (fun height c => max height c.remoteHeight) m

namespace Heights

def others (s : Heights) (id : Nat) : Nat :=
  max (maxHeight (s.connections.filter fun c => c.connectionId ≠ id) 0) (s.localHeight + 1)

/-- mirrors CryptoNoteProtocolHandler.cpp:1353-1366 -/
def recalculateMaxObservedHeight (s : Heights) (id : Nat) : Heights :=
  { s with observedHeight := s.others id, recalculated := true }

/-- `c` held the maximum and now reports less. -/
abbrev Falls (s : Heights) (peerHeight : Nat) (c : Peer) : Prop :=
  peerHeight < c.remoteHeight ∧ c.remoteHeight = s.observedHeight

/-- mirrors CryptoNoteProtocolHandler.cpp:1327-1351 -/
def updateObservedHeight (s : Heights) (peerHeight : Nat) (c : Peer) : Heights :=
  if peerHeight > c.remoteHeight then { s with observedHeight := max s.observedHeight peerHeight }
  else if s.Falls peerHeight c then s.recalculateMaxObservedHeight c.connectionId
  else s

def peer? (s : Heights) (id : Nat) : Option Peer := s.connections.find? fun c => c.connectionId = id

def set (s : Heights) (c : Peer) : Heights :=
  { s with connections := s.connections.map fun p => if p.connectionId = c.connectionId then c else p }

/-- The largest of the heights and the local one plus one. -/
def top (s : Heights) : Nat := maxHeight s.connections (s.localHeight + 1)

end Heights

inductive PeerMessage where
  | syncData (currentHeight : Nat) (isInitial : Bool)
  | newBlock (currentHeight : Nat)
  | newLiteBlock (currentHeight : Nat)
  | objects (currentHeight blocks : Nat)
  | chainEntry (startHeight totalHeight blockIds : Nat) (haveFirst : Bool)

/-- The height the handler passes on, if its checks let it.
mirrors CryptoNoteProtocolHandler.cpp:248-285, 361-366, 541-563 and 1183-1187 -/
def PeerMessage.reported (c : Peer) : PeerMessage → Option Nat
  | .syncData height isInitial => if c.handshaken = false ∧ isInitial = false then none else some height
  | .newBlock height | .newLiteBlock height => some height
  | .objects height blocks => if blocks = 0 ∨ c.lastResponseHeight > height then none else some height
  | .chainEntry .. => none

/-- The height `handle_response_chain_entry` stores, and the last one of the answer.
mirrors CryptoNoteProtocolHandler.cpp:1119-1136 -/
def PeerMessage.entry : PeerMessage → Option (Nat × Nat)
  | .chainEntry startHeight totalHeight blockIds haveFirst =>
    if blockIds = 0 ∨ haveFirst = false then none else some (totalHeight, (startHeight + blockIds - 1) % 2 ^ 32)
  | _ => none

def PeerMessage.isSyncData : PeerMessage → Bool
  | .syncData .. => true
  | _ => false

inductive HeightEvent where
  | opened (id : Nat)
  /-- `started`: whether `on_connection_new` had run. -/
  | closed (id : Nat) (started : Bool)
  | message (id : Nat) (m : PeerMessage)
  | localTop (height : Nat)

def heightStep (s : Heights) : HeightEvent → Option Heights
  | .opened id => if s.peer? id = none then some { s with connections := ⟨id, false, 0, 0⟩ :: s.connections } else none
  | .closed id started =>
    let t := if started then s.recalculateMaxObservedHeight id else s
    some { t with connections := t.connections.filter fun c => c.connectionId ≠ id }
  | .message id m => (s.peer? id).map fun c =>
    match m.reported c, m.entry with
    | some height, _ => (s.updateObservedHeight height c).set
      { c with handshaken := c.handshaken || m.isSyncData, remoteHeight := height }
    | none, some (total, last) => s.set { c with remoteHeight := total, lastResponseHeight := last }
    | none, none => s
  | .localTop height => some { s with localHeight := height }

def heightMachine : Machine Heights HeightEvent where
  Init s := s = ⟨[], 0, 0, false⟩
  step s := heightStep { s with recalculated := false }

/-- A chain entry stores no more than the observed height, and a connection that held the
maximum and reports less reports no more than the others have. -/
def Tracked (s : Heights) : HeightEvent → Prop
  | .message id m => ∀ c ∈ s.peer? id,
    (∀ x ∈ m.entry, x.1 ≤ s.observedHeight) ∧ ∀ height ∈ m.reported c, s.Falls height c → height ≤ s.others id
  | _ => True

instance (s : Heights) : (e : HeightEvent) → Decidable (Tracked s e)
  | .message .. => by unfold Tracked; infer_instance
  | .opened _ | .closed .. | .localTop _ => .isTrue trivial

/-! ## The maximum -/

variable {s t : Heights} {id n m : Nat} {c : Peer} {l : List Peer}

theorem le_maxHeight : m ≤ maxHeight l m ∧ ∀ c ∈ l, c.remoteHeight ≤ maxHeight l m := by
  induction l generalizing m with
  | nil => simp [maxHeight]
  | cons p l ih =>
    obtain ⟨hm, hl⟩ := @ih (max m p.remoteHeight)
    change m ≤ maxHeight l (max m p.remoteHeight) ∧ ∀ c ∈ p :: l, c.remoteHeight ≤ maxHeight l (max m p.remoteHeight)
    refine ⟨by omega, fun c hc => ?_⟩
    rcases List.mem_cons.mp hc with rfl | hc
    · omega
    · exact hl c hc

theorem maxHeight_le (hm : m ≤ n) (h : ∀ c ∈ l, c.remoteHeight ≤ n) : maxHeight l m ≤ n := by
  induction l generalizing m with
  | nil => exact hm
  | cons p l ih => exact ih (Nat.max_le.mpr ⟨hm, h p (by simp)⟩) fun c hc => h c (by simp [hc])

theorem le_others (hc : c ∈ s.connections) (hne : c.connectionId ≠ id) : c.remoteHeight ≤ s.others id :=
  Nat.le_trans (le_maxHeight.2 c (by simp [hc, hne])) (Nat.le_max_left ..)

/-- What the others have is below the maximum over a table they are still in. -/
theorem others_le_top (hlocal : t.localHeight = s.localHeight)
    (hmem : ∀ p ∈ s.connections, p.connectionId ≠ id → p ∈ t.connections) : s.others id ≤ t.top := by
  refine Nat.max_le.mpr ⟨maxHeight_le (Nat.zero_le _) fun p hp => ?_, hlocal ▸ le_maxHeight.1⟩
  obtain ⟨hp, hne⟩ := List.mem_filter.mp hp
  exact le_maxHeight.2 p (hmem p hp (of_decide_eq_true hne))

/-! ## Steps -/

structure HeightsOk (s : Heights) : Prop where
  tracks : ∀ c ∈ s.connections, c.remoteHeight ≤ s.observedHeight
  recent : s.recalculated = true → s.observedHeight ≤ s.top

/-- What the update leaves for the new height and for the others. -/
theorem HeightsOk.update (h : HeightsOk s) (hclear : s.recalculated = false) (hc : c ∈ s.connections)
    (hg : s.Falls n c → n ≤ s.others c.connectionId) :
    ∃ observed again, s.updateObservedHeight n c = { s with observedHeight := observed, recalculated := again } ∧
      n ≤ observed ∧ (∀ p ∈ s.connections, p.connectionId ≠ c.connectionId → p.remoteHeight ≤ observed) ∧
      (again = true → observed = s.others c.connectionId) := by
  have hold := h.tracks c hc
  unfold Heights.updateObservedHeight
  split
  · exact ⟨_, _, rfl, Nat.le_max_right .., fun p hp _ => Nat.le_trans (h.tracks p hp) (Nat.le_max_left ..),
      by simp [hclear]⟩
  · split
    · exact ⟨_, _, rfl, hg ‹_›, fun p hp hne => le_others hp hne, fun _ => rfl⟩
    · exact ⟨_, _, rfl, by omega, fun p hp _ => h.tracks p hp, by simp [hclear]⟩

theorem HeightsOk.step {e : HeightEvent} (h : HeightsOk s) (hclear : s.recalculated = false) (hg : Tracked s e)
    (hst : heightStep s e = some t) : HeightsOk t := by
  cases e with
  | opened i =>
    simp only [heightStep, Option.ite_none_right_eq_some, Option.some.injEq] at hst
    rw [← hst.2]
    exact ⟨by simpa using h.tracks, fun hr => by simp [hclear] at hr⟩
  | closed i started =>
    cases hst
    cases started with
    | false => exact ⟨fun p hp => h.tracks p (List.mem_filter.mp hp).1, fun hr => by simp [hclear] at hr⟩
    | true =>
      refine ⟨fun p hp => ?_, fun _ => others_le_top rfl fun p hp hne => List.mem_filter.mpr ⟨hp, by simpa using hne⟩⟩
      obtain ⟨hp, hne⟩ := List.mem_filter.mp hp
      exact le_others hp (of_decide_eq_true hne)
  | message i m =>
    obtain ⟨c, hc, rfl⟩ := Option.map_eq_some_iff.mp hst
    obtain ⟨hentry, hfalls⟩ := hg c hc
    have hmem := List.mem_of_find?_eq_some hc
    have hid : c.connectionId = i := by simpa using List.find?_some hc
    split
    · rename_i height hrep
      obtain ⟨observed, again, heq, hn, hothers, hagain⟩ := h.update hclear hmem (hid ▸ hfalls height hrep)
      rw [heq]
      constructor
      · intro p hp
        obtain ⟨q, hq, rfl⟩ := List.mem_map.mp hp
        split
        · exact hn
        · exact hothers q hq ‹_›
      · intro hr
        exact hagain hr ▸ others_le_top rfl fun p hp hne => List.mem_map.mpr ⟨p, hp, if_neg hne⟩
    · rename_i total last _ hrep
      refine ⟨fun p hp => ?_, fun hr => by simp [Heights.set, hclear] at hr⟩
      obtain ⟨q, hq, rfl⟩ := List.mem_map.mp hp
      split
      · exact hentry _ hrep
      · exact h.tracks q hq
    · exact h
  | localTop height =>
    cases hst
    exact ⟨h.tracks, fun hr => by simp [hclear] at hr⟩

theorem observed_height_tracks (hs : (heightMachine.lts Tracked).Reachable s) :
    (∀ c ∈ s.connections, c.remoteHeight ≤ s.observedHeight) ∧ (s.recalculated = true → s.observedHeight ≤ s.top) := by
  have hind : (heightMachine.lts Tracked).Inductive HeightsOk := by
    refine Machine.inductive_of_step ?_ ?_
    · rintro s rfl
      exact ⟨by simp, by simp⟩
    · intro s e t h hg hst
      refine HeightsOk.step (s := { s with recalculated := false }) ⟨h.tracks, by simp⟩ rfl ?_ hst
      cases e <;> exact hg
  have hok := hind.reachable hs
  exact ⟨hok.tracks, hok.recent⟩

/-- A peer at height 100 and one at 50. -/
def twoHeights : List HeightEvent :=
  [.opened 1, .opened 2, .message 1 (.syncData 100 true), .message 2 (.syncData 50 true)]

theorem heights_init (G : Heights → HeightEvent → Prop) : (heightMachine.lts G).Reachable ⟨[], 0, 0, false⟩ := .init rfl

/-- The higher peer closes. -/
theorem observed_height_tracks_closed : ∃ s, (heightMachine.lts Tracked).Reachable s ∧ s.observedHeight = 50 ∧
    (∀ c ∈ s.connections, c.remoteHeight ≤ s.observedHeight) ∧ (s.recalculated = true → s.observedHeight ≤ s.top) := by
  obtain ⟨s, hreach, hp⟩ := Machine.exists_run (P := fun s => s.observedHeight = 50) (heights_init Tracked)
    (twoHeights ++ [.closed 1 true]) (by decide)
  exact ⟨s, hreach, hp, observed_height_tracks hreach⟩

/-- A chain entry with a larger total; and the higher peer falls to 90. -/
theorem unreported_height : (∃ s, (heightMachine.lts Machine.anyEvent).Reachable s ∧
      ∃ c ∈ s.connections, s.observedHeight < c.remoteHeight ∧ c.remoteHeight = 120) ∧
    ∃ s, (heightMachine.lts Machine.anyEvent).Reachable s ∧
      ∃ c ∈ s.connections, s.observedHeight < c.remoteHeight ∧ c.remoteHeight = 90 := by
  constructor
  · exact Machine.exists_run (heights_init _) (twoHeights ++ [.message 1 (.chainEntry 0 120 2 true)]) (by decide)
  · exact Machine.exists_run (heights_init _) (twoHeights ++ [.message 1 (.newBlock 90)]) (by decide)

end Discrete.L5
