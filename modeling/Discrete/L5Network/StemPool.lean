import Discrete.Core.Threads
import Discrete.L4Node.TemplateReward

/-!
# The stem pool (`CryptoNoteProtocolHandler.cpp`)

A transaction that travels in stem mode is passed to one peer at a time and kept in the stem
pool, so that `fluffStemPool` can broadcast it should the stem break. Three procedures work on
the pool: `handle_notify_new_transactions`, `relay_transactions` and `fluffStemPool`. The pool
locks each of its operations and nothing else, so the procedures are programs that are cut at
the operations, and a run interleaves them.

Three lists are kept for the statements: `owed` has the hashes that were added to the pool and
not broadcast since, `received` those that came in a fluff notification, `invalid` those that
the core found invalid.

* `returning_stem_lost`: a stem transaction that comes back is known to the core, which does
  not ask for it to be relayed. The branch that broadcasts a transaction after a round trip is
  not reached; it is removed from the pool as already broadcast.
* `stem_not_lost`: where that does not happen, no peer is dropped between a round trip and the
  broadcast, and nothing is added while `fluffStemPool` is about to clear the pool, an owed
  transaction is in the pool, or was received or invalid, or a running procedure is going to
  broadcast it.
-/
namespace Discrete.L5
open List L1 L2 L3 L4

/-! ## State and operations -/

def freeRegPeerWorkBudget : Nat := 32

/-- The flags of `tx_verification_context`. -/
structure TxVerdict where
  verificationFailed : Bool
  addedToPool : Bool
  shouldBeRelayed : Bool

/-- The flags that `handle_incoming_tx` leaves; a transaction that the core has already gets
none of them.
mirrors Core.cpp:476-492, TransactionPool.cpp:274-281 -/
def handleIncomingVerdict (N : NodeEnv) (s : Node) (blob : Bytes) : TxVerdict × Node :=
  let r := handleIncomingTx N s blob false
  let id := N.P.cnFastHash blob
  let added := !s.pool.haveTx id && r.2.pool.haveTx id
  (⟨!r.1, added, added && (r.2.pool.transactions.find id).any fun d => decide (0 < d.fee) || isFreeReg d.tx⟩, r.2)

structure StemState where
  node : Node
  stempool : List (Hash × Bytes)
  /-- `m_wasted_proof_work` of each connection. -/
  wastedProofWork : Nat → Nat
  owed : List Hash
  received : List Hash
  invalid : List Hash

def StemState.hasTransaction (s : StemState) (txid : Hash) : Bool := s.stempool.any fun x => x.1 = txid

/-- mirrors CryptoNoteProtocolHandler.h:71-76 -/
def StemState.addTransaction (s : StemState) (txid : Hash) (txBlob : Bytes) : StemState :=
  if s.hasTransaction txid then s
  else { s with stempool := (txid, txBlob) :: s.stempool, owed := txid :: s.owed }

/-- mirrors CryptoNoteProtocolHandler.h:78-87 -/
def StemState.removeTransaction (s : StemState) (txid : Hash) : StemState :=
  { s with stempool := s.stempool.filter fun x => x.1 ≠ txid }

/-- What the procedures do outside their own variables. `known` marks the test for a
transaction of a stem notification that is valid and not to be relayed; `roundTrip` says that
a transaction of the same notification was taken out of the pool to be broadcast. -/
inductive StemOp where
  | incoming (blob : Bytes) (stem : Bool)
  | charge (connection : Nat) (proofWork : Nat)
  | dropConnection (roundTrip : Bool)
  | hasTransaction (known : Bool) (txid : Hash)
  | addTransaction (txid : Hash) (txBlob : Bytes)
  | removeTransaction (txid : Hash)
  | hasTransactions
  | getTransactions
  | clearStemPool
  | getDandelionStemPeer
  | coinFlip
  | postStem (txs : List Bytes)
  | relayToAll (txs : List Bytes)

@[reducible] def StemAns : StemOp → Type
  | .incoming .. => TxVerdict × Nat
  | .charge .. => Bool
  | .hasTransaction .. => Bool
  | .hasTransactions => Bool
  | .getTransactions => List (Hash × Bytes)
  | .getDandelionStemPeer => Bool
  | .coinFlip => Bool
  | .postStem _ => Bool
  | _ => Unit

abbrev StemProg : Type := Prog StemOp StemAns

/-- What the state does not decide: the work spent on a proof, and the peers and the coin. -/
structure StemOracle where
  proofWork : Nat
  answer : Bool

def stemExec (N : NodeEnv) (ω : StemOracle) (s : StemState) : (o : StemOp) → StemState × StemAns o
  | .incoming blob stem =>
    let r := handleIncomingVerdict N s.node blob
    let id := N.P.cnFastHash blob
    ({ s with
        node := r.2
        received := if stem then s.received else id :: s.received
        invalid := if r.1.verificationFailed then id :: s.invalid else s.invalid }, (r.1, ω.proofWork))
  | .charge connection proofWork =>
    let spent := s.wastedProofWork connection + proofWork
    ({ s with wastedProofWork := fun c => if c = connection then spent else s.wastedProofWork c },
      decide (spent > freeRegPeerWorkBudget))
  | .dropConnection _ => (s, ())
  | .hasTransaction _ txid => (s, s.hasTransaction txid)
  | .addTransaction txid txBlob => (s.addTransaction txid txBlob, ())
  | .removeTransaction txid => (s.removeTransaction txid, ())
  | .hasTransactions => (s, !s.stempool.isEmpty)
  | .getTransactions => (s, s.stempool)
  | .clearStemPool => ({ s with stempool := [] }, ())
  | .getDandelionStemPeer => (s, ω.answer)
  | .coinFlip => (s, ω.answer)
  | .postStem _ => (s, ω.answer)
  | .relayToAll txs => ({ s with owed := s.owed.filter fun h => h ∉ txs.map N.P.cnFastHash }, ())

/-! ## The procedures -/

section Procedures
variable (P : Primitives)

def removeTransactions : List Hash → StemProg → StemProg
  | [], k => k
  | h :: l, k => .op (.removeTransaction h) fun _ => removeTransactions l k

def fluff (txs : List Bytes) : StemProg := .op (.relayToAll txs) fun _ => .done

/-- The part after the loop.
mirrors CryptoNoteProtocolHandler.cpp:477-508 -/
def relayNotified (txs : List Bytes) (txHashes : List Hash) (stem : Bool) : StemProg :=
  if txs = [] then .done
  else if stem then
    .op .getDandelionStemPeer fun (found : Bool) =>
      if found then
        .op .coinFlip fun (propagate : Bool) =>
          if propagate then
            .op (.postStem txs) fun (posted : Bool) =>
              if posted then .done else removeTransactions txHashes (fluff txs)
          else removeTransactions txHashes (fluff txs)
      else fluff txs
  else fluff txs

/-- What the loop makes of the core's answer for one transaction; `next` is the rest of it.
`stem₀` is the flag that the notification came with, `stem` what the loop has made of it.
mirrors CryptoNoteProtocolHandler.cpp:445-473 -/
def fileTransaction (stem₀ stem : Bool) (tvc : TxVerdict) (blob : Bytes) (kept : List Bytes) (txHashes : List Hash)
    (next : List Bytes → List Hash → Bool → StemProg) : StemProg :=
  let transactionHash := P.cnFastHash blob
  if !tvc.verificationFailed && tvc.shouldBeRelayed then
    .op (.hasTransaction false transactionHash) fun (inPool : Bool) =>
      if !stem then
        if inPool then .op (.removeTransaction transactionHash) fun _ => next (kept ++ [blob]) txHashes stem
        else next (kept ++ [blob]) txHashes stem
      else if inPool then
        -- the transaction made a round trip
        .op (.removeTransaction transactionHash) fun _ =>
          next (kept ++ [blob]) (txHashes.filter (· ≠ transactionHash)) false
      else .op (.addTransaction transactionHash blob) fun _ => next (kept ++ [blob]) (txHashes ++ [transactionHash]) stem
  else
    .op (.hasTransaction (stem₀ && !tvc.verificationFailed) transactionHash) fun (inPool : Bool) =>
      if inPool then .op (.removeTransaction transactionHash) fun _ => next kept txHashes stem
      else next kept txHashes stem

/-- The loop; `kept` and `txHashes` are `arg.txs` and the hashes of the stem, so far.
mirrors CryptoNoteProtocolHandler.cpp:419-475 -/
def handleTransactions (connection : Nat) (stem₀ : Bool) : List Bytes → List Bytes → List Hash → Bool → StemProg
  | [], kept, txHashes, stem => relayNotified kept txHashes stem
  | blob :: rest, kept, txHashes, stem =>
    .op (.incoming blob stem₀) fun r =>
      let filed := fileTransaction P stem₀ stem r.1 blob kept txHashes fun kept txHashes stem =>
        handleTransactions connection stem₀ rest kept txHashes stem
      if r.2 ≠ 0 ∧ r.1.addedToPool = false then
        .op (.charge connection r.2) fun (exceeded : Bool) =>
          if exceeded then .op (.dropConnection (stem₀ && !stem)) fun _ => .done else filed
      else filed

/-- A notification that answers a pending lite block goes another way.
mirrors CryptoNoteProtocolHandler.cpp:403-511 -/
def handleNotifyNewTransactions (connection : Nat) (txs : List Bytes) (stem : Bool) : StemProg :=
  handleTransactions P connection stem txs [] [] stem

/-- mirrors CryptoNoteProtocolHandler.cpp:1270-1300 -/
def collectStem (all : List Bytes) : List Bytes → List Hash → StemProg
  | [], txHashes =>
    .op .coinFlip fun (propagate : Bool) =>
      if propagate then .op (.postStem all) fun _ => .done
      else removeTransactions txHashes (fluff all)
  | blob :: rest, txHashes =>
    .op (.hasTransaction false (P.cnFastHash blob)) fun (inPool : Bool) =>
      if inPool then collectStem all rest txHashes
      else .op (.addTransaction (P.cnFastHash blob) blob) fun _ => collectStem all rest (txHashes ++ [P.cnFastHash blob])

/-- mirrors CryptoNoteProtocolHandler.cpp:1267-1307 -/
def relayTransactions (txs : List Bytes) (stem : Bool) : StemProg :=
  if stem then
    .op .getDandelionStemPeer fun (found : Bool) => if found then collectStem P txs txs [] else fluff txs
  else fluff txs

def clearPool : StemProg := .op .clearStemPool fun _ => .done

def relayAndClear (stemTxs : List (Hash × Bytes)) : StemProg :=
  .op (.relayToAll (stemTxs.map Prod.snd)) fun _ => clearPool

/-- mirrors CryptoNoteProtocolHandler.cpp:861-882 -/
def fluffStemPool : StemProg :=
  .op .hasTransactions fun (any : Bool) => if any then .op .getTransactions relayAndClear else .done

end Procedures

inductive StemCall where
  | handleNotifyNewTransactions (connection : Nat) (txs : List Bytes) (stem : Bool)
  | relayTransactions (txs : List Bytes) (stem : Bool)
  | fluffStemPool

def StemCall.program (P : Primitives) : StemCall → StemProg
  | .handleNotifyNewTransactions connection txs stem => L5.handleNotifyNewTransactions P connection txs stem
  | .relayTransactions txs stem => L5.relayTransactions P txs stem
  | .fluffStemPool => L5.fluffStemPool

/-- The node changes by itself: blocks, expiry, templates. -/
def stemScheduler (N : NodeEnv) : Scheduler StemState StemCall StemOracle Node StemOp StemAns where
  Init s := s.stempool = [] ∧ s.owed = []
  program := StemCall.program N.P
  exec := stemExec N
  env := fun node s => { s with node := node }

abbrev StemThreads : Type := Threads StemState StemOp StemAns

theorem hasTransaction_iff {s : StemState} {txid : Hash} :
    s.hasTransaction txid = true ↔ ∃ x ∈ s.stempool, x.1 = txid := by
  simp [StemState.hasTransaction]

/-! ## What a program owes -/

section Programs
variable {P : Primitives} {h : Hash} {K : Hash → Prop}

/-- The operation broadcasts `h`. A peer is taken not to be dropped after a round trip. -/
def Settles (P : Primitives) (h : Hash) : StemOp → Prop
  | .relayToAll txs => h ∈ txs.map P.cnFastHash
  | .dropConnection roundTrip => roundTrip = true
  | _ => False

/-- Whatever the answers, the program broadcasts `h`. -/
def Owes (P : Primitives) (h : Hash) : StemProg → Prop
  | .done => False
  | .op o k => Settles P h o ∨ ∀ a, Owes P h (k a)

/-- The answers that the guard of a run leaves. -/
def Allowed : (o : StemOp) → StemAns o → Prop
  | .hasTransaction known _, inPool => known = true → inPool = false
  | .dropConnection roundTrip, _ => roundTrip = false
  | _, _ => True

/-- An answer of the core tells that a transaction was received in fluff mode or is invalid. -/
def Learned (P : Primitives) : (o : StemOp) → StemAns o → Hash → Prop
  | .incoming blob stem, r, h => h = P.cnFastHash blob ∧ (stem = false ∨ r.1.verificationFailed = true)
  | _, _, _ => False

/-- What the program does next, where `K` are received in fluff mode or invalid: it removes
from the pool only these and what it is going to broadcast. -/
structure OpSafe (P : Primitives) (K : Hash → Prop) (o : StemOp) (k : StemAns o → StemProg) : Prop where
  keeps : o ≠ .clearStemPool
  adds : ∀ txid txBlob, o = .addTransaction txid txBlob → txid = P.cnFastHash txBlob
  removes : ∀ txid, o = .removeTransaction txid → K txid ∨ ∀ a, Owes P txid (k a)

def Safe (P : Primitives) : (Hash → Prop) → StemProg → Prop
  | _, .done => True
  | K, .op o k => OpSafe P K o k ∧ ∀ a, Allowed o a → Safe P (fun h => K h ∨ Learned P o a h) (k a)

theorem Safe.mono {p : StemProg} : ∀ {K K' : Hash → Prop}, (∀ h, K h → K' h) → Safe P K p → Safe P K' p := by
  induction p with
  | done => exact fun _ _ => trivial
  | op o k ih =>
    intro K K' hsub ⟨hop, hk⟩
    refine ⟨⟨hop.keeps, hop.adds, fun txid e => (hop.removes txid e).imp_left (hsub txid)⟩, fun a ha => ?_⟩
    exact ih a (fun h => Or.imp_left (hsub h)) (hk a ha)

/-- An operation that neither adds nor removes. -/
theorem Safe.plain {o : StemOp} {k : StemAns o → StemProg} (hclear : o ≠ .clearStemPool)
    (hadd : ∀ txid txBlob, o ≠ .addTransaction txid txBlob) (hremove : ∀ txid, o ≠ .removeTransaction txid)
    (hk : ∀ a, Allowed o a → Safe P (fun h => K h ∨ Learned P o a h) (k a)) : Safe P K (.op o k) :=
  ⟨⟨hclear, fun txid b e => absurd e (hadd txid b), fun txid e => absurd e (hremove txid)⟩, hk⟩

theorem safe_remove {txid : Hash} {k : Unit → StemProg} (hreason : K txid ∨ Owes P txid (k ())) (hk : Safe P K (k ())) :
    Safe P K (.op (.removeTransaction txid) k) := by
  refine ⟨⟨nofun, nofun, fun txid' e => ?_⟩, fun _ _ => hk.mono fun _ => .inl⟩
  cases e
  exact hreason.imp_right fun howes _ => howes

theorem safe_fluff (txs : List Bytes) : Safe P K (fluff txs) := .plain nofun nofun nofun fun _ _ => trivial

variable {txs : List Bytes}

theorem owes_fluff (hin : h ∈ txs.map P.cnFastHash) : Owes P h (fluff txs) := .inl hin

theorem owes_removeTransactions {k : StemProg} (howes : Owes P h k) : ∀ l, Owes P h (removeTransactions l k)
  | [] => howes
  | _ :: l => .inr fun _ => owes_removeTransactions howes l

theorem safe_removeTransactions : ∀ {l : List Hash}, (∀ h ∈ l, h ∈ txs.map P.cnFastHash) →
    Safe P K (removeTransactions l (fluff txs))
  | [], _ => safe_fluff txs
  | h :: l, hl => by
    obtain ⟨hh, hl⟩ := forall_mem_cons.mp hl
    exact safe_remove (.inr (owes_removeTransactions (owes_fluff hh) l)) (safe_removeTransactions hl)

variable {txHashes : List Hash}

theorem safe_relayNotified (hsub : ∀ h ∈ txHashes, h ∈ txs.map P.cnFastHash) (stem : Bool) :
    Safe P K (relayNotified txs txHashes stem) := by
  unfold relayNotified
  split
  · exact trivial
  split
  · refine .plain nofun nofun nofun fun found _ => ?_
    split
    · refine .plain nofun nofun nofun fun propagate _ => ?_
      split
      · refine .plain nofun nofun nofun fun posted _ => ?_
        split
        · exact trivial
        · exact safe_removeTransactions hsub
      · exact safe_removeTransactions hsub
    · exact safe_fluff txs
  · exact safe_fluff txs

theorem owes_relayNotified (hin : h ∈ txs.map P.cnFastHash) : Owes P h (relayNotified txs txHashes false) := by
  unfold relayNotified
  split
  · rename_i hempty
    rw [hempty] at hin
    cases hin
  · exact owes_fluff hin

theorem owes_ite {c : Prop} [Decidable c] {p q : StemProg} (hp : Owes P h p) (hq : Owes P h q) :
    Owes P h (if c then p else q) := by
  split
  · exact hp
  · exact hq

theorem hash_mem_append {kept : List Bytes} {blob : Bytes} (hin : h ∈ kept.map P.cnFastHash) :
    h ∈ (kept ++ [blob]).map P.cnFastHash := by
  rw [map_append]
  exact mem_append_left _ hin

/-- After a round trip the loop ends in a broadcast of all it has kept. -/
theorem owes_handleTransactions {connection : Nat} : ∀ {rest kept : List Bytes} {txHashes : List Hash},
    h ∈ kept.map P.cnFastHash → Owes P h (handleTransactions P connection true rest kept txHashes false)
  | [], _, _, hin => owes_relayNotified hin
  | blob :: rest, kept, txHashes, hin => by
    have hmore : h ∈ (kept ++ [blob]).map P.cnFastHash := hash_mem_append hin
    have hfiled : ∀ tvc, Owes P h (fileTransaction P true false tvc blob kept txHashes fun kept txHashes stem =>
        handleTransactions P connection true rest kept txHashes stem) := by
      intro tvc
      refine owes_ite (.inr fun inPool => owes_ite ?_ ?_) (.inr fun inPool => owes_ite ?_ ?_)
      · exact owes_ite (.inr fun _ => owes_handleTransactions hmore) (owes_handleTransactions hmore)
      · exact owes_ite (.inr fun _ => owes_handleTransactions hmore) (.inr fun _ => owes_handleTransactions hmore)
      · exact .inr fun _ => owes_handleTransactions hin
      · exact owes_handleTransactions hin
    exact .inr fun r => owes_ite (.inr fun exceeded => owes_ite (.inl rfl) (hfiled r.1)) (hfiled r.1)

/-- The test for one transaction removes what came in fluff mode or is invalid; what comes in
stem mode it removes after a round trip, and the rest of the loop broadcasts it. -/
theorem safe_fileTransaction {stem₀ stem : Bool} {tvc : TxVerdict} {blob : Bytes} {kept : List Bytes}
    {next : List Bytes → List Hash → Bool → StemProg}
    (hsub : ∀ h ∈ txHashes, h ∈ kept.map P.cnFastHash) (hstem : stem₀ = false → stem = false)
    (hK : stem₀ = false ∨ tvc.verificationFailed = true → K (P.cnFastHash blob))
    (howes : stem₀ = true → ∀ txHashes, Owes P (P.cnFastHash blob) (next (kept ++ [blob]) txHashes false))
    (hnext : ∀ kept txHashes stem K, (∀ h ∈ txHashes, h ∈ kept.map P.cnFastHash) → (stem₀ = false → stem = false) →
      Safe P K (next kept txHashes stem)) :
    Safe P K (fileTransaction P stem₀ stem tvc blob kept txHashes next) := by
  have hmore : ∀ h ∈ txHashes, h ∈ (kept ++ [blob]).map P.cnFastHash := fun h hh => hash_mem_append (hsub h hh)
  unfold fileTransaction
  dsimp only
  split
  · refine .plain nofun nofun nofun fun inPool _ => ?_
    split
    · rename_i hfluff
      have hfalse : stem = false := by simpa using hfluff
      subst hfalse
      split
      · refine safe_remove ?_ (hnext _ _ _ _ hmore hstem)
        cases stem₀ with
        | false => exact .inl (.inl (hK (.inl rfl)))
        | true => exact .inr (howes rfl _)
      · exact hnext _ _ _ _ hmore hstem
    · rename_i hfluff
      have htrue : stem = true := by simpa using hfluff
      have htrue₀ : stem₀ = true := by
        cases stem₀ with
        | false => cases htrue.symm.trans (hstem rfl)
        | true => rfl
      split
      · refine safe_remove (.inr (howes htrue₀ _)) (hnext _ _ _ _ ?_ fun _ => rfl)
        exact fun h hh => hmore h (mem_filter.mp hh).1
      · refine ⟨⟨nofun, ?_, nofun⟩, fun _ _ => hnext _ _ _ _ ?_ hstem⟩
        · intro txid txBlob e
          cases e
          rfl
        · intro h hh
          rcases mem_append.mp hh with hh | hh
          · exact hmore h hh
          · rw [mem_singleton.mp hh]
            simp
  · refine .plain nofun nofun nofun fun inPool hallowed => ?_
    split
    · rename_i hin
      refine safe_remove (.inl (.inl (hK ?_))) (hnext _ _ _ _ hsub hstem)
      -- a known transaction of a stem notification is not in the pool
      by_contra hunknown
      rw [not_or] at hunknown
      have hout : inPool = false := hallowed (by simp [hunknown.1, hunknown.2])
      rw [hout] at hin
      cases hin
    · exact hnext _ _ _ _ hsub hstem

theorem safe_handleTransactions {connection : Nat} {stem₀ : Bool} : ∀ {rest kept : List Bytes} {txHashes : List Hash}
    {stem : Bool} {K : Hash → Prop}, (∀ h ∈ txHashes, h ∈ kept.map P.cnFastHash) → (stem₀ = false → stem = false) →
    Safe P K (handleTransactions P connection stem₀ rest kept txHashes stem)
  | [], _, _, stem, _, hsub, _ => safe_relayNotified hsub stem
  | blob :: rest, kept, txHashes, stem, K, hsub, hstem => by
    have hfiled : ∀ (tvc : TxVerdict) (K' : Hash → Prop),
        (stem₀ = false ∨ tvc.verificationFailed = true → K' (P.cnFastHash blob)) →
        Safe P K' (fileTransaction P stem₀ stem tvc blob kept txHashes fun kept txHashes stem =>
          handleTransactions P connection stem₀ rest kept txHashes stem) := by
      intro tvc K' hK
      refine safe_fileTransaction hsub hstem hK ?_ fun _ _ _ _ => safe_handleTransactions
      intro htrue txHashes'
      rw [htrue]
      exact owes_handleTransactions (by simp)
    refine .plain nofun nofun nofun fun r _ => ?_
    dsimp only
    split
    · refine .plain nofun nofun nofun fun exceeded _ => ?_
      split
      · exact .plain nofun nofun nofun fun _ _ => trivial
      · exact hfiled _ _ fun hlearned => .inl (.inr ⟨rfl, hlearned⟩)
    · exact hfiled _ _ fun hlearned => .inr ⟨rfl, hlearned⟩

theorem safe_collectStem {all : List Bytes} : ∀ {rest : List Bytes} {txHashes : List Hash} {K : Hash → Prop},
    (∀ b ∈ rest, b ∈ all) → (∀ h ∈ txHashes, h ∈ all.map P.cnFastHash) → Safe P K (collectStem P all rest txHashes)
  | [], txHashes, K, _, hsub => by
    refine .plain nofun nofun nofun fun propagate _ => ?_
    split
    · exact .plain nofun nofun nofun fun _ _ => trivial
    · exact safe_removeTransactions hsub
  | blob :: rest, txHashes, K, hall, hsub => by
    obtain ⟨hblob, hrest⟩ := forall_mem_cons.mp hall
    refine .plain nofun nofun nofun fun inPool _ => ?_
    split
    · exact safe_collectStem hrest hsub
    · refine ⟨⟨nofun, ?_, nofun⟩, fun _ _ => safe_collectStem hrest ?_⟩
      · intro txid txBlob e
        cases e
        rfl
      · intro h hh
        rcases mem_append.mp hh with hh | hh
        · exact hsub h hh
        · rw [mem_singleton.mp hh]
          exact List.mem_map_of_mem hblob

theorem safe_relayTransactions (txs : List Bytes) (stem : Bool) : Safe P K (relayTransactions P txs stem) := by
  unfold relayTransactions
  split
  · refine .plain nofun nofun nofun fun found _ => ?_
    split
    · exact safe_collectStem (fun _ hb => hb) (fun _ hh => absurd hh not_mem_nil)
    · exact safe_fluff txs
  · exact safe_fluff txs

end Programs

/-! ## Runs -/

/-- `fluffStemPool` has read the pool and not cleared it. -/
def clearing : StemProg → Bool
  | .op .clearStemPool _ => true
  | .op (.relayToAll _) k =>
    match k () with
    | .op .clearStemPool _ => true
    | _ => false
  | _ => false

def nextOp : StemProg → Option StemOp
  | .done => none
  | .op o _ => some o

/-- What an operation needs: a transaction that comes back in stem mode and is not to be
relayed has left the pool; no peer is dropped after a round trip; nothing new is added to a
pool that is about to be cleared. -/
def OpGuard (s : StemThreads) : StemOp → Prop
  | .hasTransaction known txid => known = true → s.shared.hasTransaction txid = false
  | .dropConnection roundTrip => roundTrip = false
  | .addTransaction txid _ => s.shared.hasTransaction txid = true ∨ ∀ p ∈ s.running, clearing p = false
  | _ => True

def StemGuard (s : StemThreads) : ThreadEvent StemCall StemOracle Node → Prop
  | .turn i _ => ∀ p ∈ s.running[i]?, ∀ o ∈ nextOp p, OpGuard s o
  | _ => True

section Runs
variable {N : NodeEnv} {ω : StemOracle} {s : StemState} {h : Hash}

/-- Received in fluff mode or found invalid. -/
def StemState.Known (s : StemState) (h : Hash) : Prop := h ∈ s.received ∨ h ∈ s.invalid

def StemState.Kept (s : StemState) (h : Hash) : Prop := s.hasTransaction h = true ∨ s.Known h

variable {o : StemOp}

theorem exec_known (hk : s.Known h) : (stemExec N ω s o).1.Known h := by
  cases o with
  | incoming blob stem =>
    refine hk.imp (fun hr => ?_) fun hi => ?_
    · show h ∈ if stem then s.received else _ :: s.received
      split
      · exact hr
      · exact mem_cons_of_mem _ hr
    · show h ∈ if _ then _ :: s.invalid else s.invalid
      split
      · exact mem_cons_of_mem _ hi
      · exact hi
  | addTransaction txid txBlob =>
    show (s.addTransaction txid txBlob).Known h
    unfold StemState.addTransaction
    split <;> exact hk
  | _ => exact hk

theorem exec_learned (hl : Learned N.P o (stemExec N ω s o).2 h) : (stemExec N ω s o).1.Known h := by
  cases o with
  | incoming blob stem =>
    obtain ⟨rfl, hfluff | hfailed⟩ := hl
    · exact .inl (by simp [stemExec, hfluff])
    · have hf : (handleIncomingVerdict N s.node blob).1.verificationFailed = true := hfailed
      exact .inr (by simp [stemExec, hf])
  | _ => exact hl.elim

/-- Only an addition of something new makes the pool or what is owed larger. -/
theorem exec_shrinks (hadd : ∀ txid b, o = .addTransaction txid b → s.hasTransaction txid = true) :
    (∀ x ∈ (stemExec N ω s o).1.stempool, x ∈ s.stempool) ∧ ∀ h ∈ (stemExec N ω s o).1.owed, h ∈ s.owed := by
  cases o with
  | addTransaction txid txBlob =>
    have hsame : (stemExec N ω s (.addTransaction txid txBlob)).1 = s := if_pos (hadd txid txBlob rfl)
    rw [hsame]
    exact ⟨fun _ hx => hx, fun _ hh => hh⟩
  | removeTransaction txid => exact ⟨fun x hx => (mem_filter.mp hx).1, fun _ hh => hh⟩
  | clearStemPool => exact ⟨fun x hx => absurd hx not_mem_nil, fun _ hh => hh⟩
  | relayToAll txs => exact ⟨fun _ hx => hx, fun x hx => (mem_filter.mp hx).1⟩
  | _ => exact ⟨fun _ hx => hx, fun _ hh => hh⟩

/-- Where `fluffStemPool` is, with what it relies on from then on. -/
inductive FluffAt (P : Primitives) (s : StemState) : StemProg → Prop where
  | start : FluffAt P s fluffStemPool
  | read : FluffAt P s (.op .getTransactions relayAndClear)
  | relay (l : List (Hash × Bytes)) : (∀ x ∈ s.stempool, x.1 ∈ (l.map Prod.snd).map P.cnFastHash) →
      FluffAt P s (relayAndClear l)
  | clear : (∀ x ∈ s.stempool, x.1 ∉ s.owed) → FluffAt P s clearPool

theorem FluffAt.frame {P : Primitives} {s' : StemState} {p : StemProg} (hp : FluffAt P s p)
    (hpool : ∀ x ∈ s'.stempool, x ∈ s.stempool) (howed : ∀ h ∈ s'.owed, h ∈ s.owed) : FluffAt P s' p := by
  cases hp with
  | start => exact .start
  | read => exact .read
  | relay l hl => exact .relay l fun x hx => hl x (hpool x hx)
  | clear hc => exact .clear fun x hx hin => hc x (hpool x hx) (howed _ hin)

theorem FluffAt.not_clearing {P : Primitives} {p : StemProg} (hp : FluffAt P s p) (hn : clearing p = false) (s' : StemState) :
    FluffAt P s' p := by
  cases hp with
  | start => exact .start
  | read => exact .read
  | relay l _ => cases hn
  | clear _ => cases hn

structure StemInv (P : Primitives) (s : StemThreads) : Prop where
  settled : ∀ h ∈ s.shared.owed, s.shared.Kept h ∨ ∃ p ∈ s.running, Owes P h p
  threads : ∀ p ∈ s.running, Safe P s.shared.Known p ∨ FluffAt P s.shared p
  keyed : ∀ x ∈ s.shared.stempool, x.1 = P.cnFastHash x.2

theorem StemCall.ok (P : Primitives) (s : StemState) (c : StemCall) :
    Safe P s.Known (c.program P) ∨ FluffAt P s (c.program P) := by
  cases c with
  | handleNotifyNewTransactions connection txs stem =>
    exact .inl (safe_handleTransactions (fun _ hh => absurd hh not_mem_nil) fun hs => hs)
  | relayTransactions txs stem => exact .inl (safe_relayTransactions txs stem)
  | fluffStemPool => exact .inr .start

variable {t : StemThreads}

theorem guard_allowed (hg : OpGuard t o) : Allowed o (stemExec N ω t.shared o).2 := by
  cases o with
  | hasTransaction known txid => exact hg
  | dropConnection roundTrip => exact hg
  | _ => exact trivial

variable {i : Nat} {k : StemAns o → StemProg}

/-- A thread that owes `h` still does after an operation that does not settle it. -/
theorem owes_after {P : Primitives} (hi : t.running[i]? = some (.op o k)) (hns : ¬ Settles P h o) (a : StemAns o)
    (howes : ∃ p ∈ t.running, Owes P h p) : ∃ p ∈ t.running.set i (k a), Owes P h p := by
  obtain ⟨p, hp, ho⟩ := howes
  obtain ⟨j, hj⟩ := mem_iff_getElem?.mp hp
  by_cases hij : i = j
  · subst hij
    obtain rfl : Prog.op o k = p := by rwa [hi, Option.some.injEq] at hj
    refine ⟨k a, mem_set (List.getElem?_eq_some_iff.mp hi).1 _, ho.resolve_left hns a⟩
  · exact ⟨p, Threads.mem_set_of_ne hj hij, ho⟩

theorem Kept.exec (hk : s.Kept h) (hpool : ∀ x ∈ s.stempool, x.1 = h → x ∈ (stemExec N ω s o).1.stempool) :
    (stemExec N ω s o).1.Kept h := by
  rcases hk with hin | hknown
  · obtain ⟨x, hx, hxh⟩ := hasTransaction_iff.mp hin
    exact .inl (hasTransaction_iff.mpr ⟨x, hpool x hx hxh, hxh⟩)
  · exact .inr (exec_known hknown)

/-- The thread whose turn it is. -/
theorem thread_performs (hinv : StemInv N.P t) (hi : t.running[i]? = some (.op o k)) (hg : OpGuard t o) :
    Safe N.P (stemExec N ω t.shared o).1.Known (k (stemExec N ω t.shared o).2) ∨
      FluffAt N.P (stemExec N ω t.shared o).1 (k (stemExec N ω t.shared o).2) := by
  rcases hinv.threads _ (mem_of_getElem? hi) with hsafe | hfluff
  · refine .inl ((hsafe.2 _ (guard_allowed hg)).mono fun h hh => ?_)
    exact hh.elim exec_known exec_learned
  · generalize hp : Prog.op o k = p at hfluff
    cases hfluff with
    | start =>
      cases hp
      dsimp only
      split
      · exact .inr .read
      · exact .inl trivial
    | read =>
      cases hp
      refine .inr (.relay _ fun x hx => ?_)
      rw [hinv.keyed x hx]
      exact List.mem_map_of_mem (List.mem_map_of_mem hx)
    | relay l hl =>
      cases hp
      refine .inr (.clear fun x hx hin => ?_)
      have := (mem_filter.mp hin).2
      exact of_decide_eq_true this (hl x hx)
    | clear _ =>
      cases hp
      exact .inl trivial

/-- A thread that waits. -/
theorem thread_waits (hg : OpGuard t o) {q : StemProg} (hq : q ∈ t.running)
    (hok : Safe N.P t.shared.Known q ∨ FluffAt N.P t.shared q) :
    Safe N.P (stemExec N ω t.shared o).1.Known q ∨ FluffAt N.P (stemExec N ω t.shared o).1 q := by
  rcases hok with hsafe | hfluff
  · exact .inl (hsafe.mono fun h hh => exec_known hh)
  by_cases hnew : ∃ txid b, o = .addTransaction txid b ∧ t.shared.hasTransaction txid = false
  · obtain ⟨txid, b, rfl, hout⟩ := hnew
    rcases hg with hin | hclear
    · cases hin.symm.trans hout
    · exact .inr (hfluff.not_clearing (hclear q hq) _)
  · obtain ⟨hpool, howed⟩ := exec_shrinks (N := N) (ω := ω) (s := t.shared) (o := o) fun txid b e => by
      by_contra hout
      exact hnew ⟨txid, b, e, by simpa using hout⟩
    exact .inr (hfluff.frame hpool howed)

theorem StemInv.perform (hinv : StemInv N.P t) (hi : t.running[i]? = some (.op o k)) (hg : OpGuard t o) :
    StemInv N.P ⟨(stemExec N ω t.shared o).1, t.running.set i (k (stemExec N ω t.shared o).2)⟩ where
  threads := by
    intro q hq
    rcases mem_or_eq_of_mem_set hq with hq | rfl
    · exact thread_waits hg hq (hinv.threads q hq)
    · exact thread_performs hinv hi hg
  keyed := by
    intro x hx
    by_cases hnew : ∃ txid b, o = .addTransaction txid b ∧ t.shared.hasTransaction txid = false
    · obtain ⟨txid, b, rfl, hout⟩ := hnew
      have hstep : (stemExec N ω t.shared (.addTransaction txid b)).1.stempool = (txid, b) :: t.shared.stempool := by
        simp [stemExec, StemState.addTransaction, hout]
      rw [hstep] at hx
      rcases mem_cons.mp hx with rfl | hx
      · rcases hinv.threads _ (mem_of_getElem? hi) with hsafe | hfluff
        · exact hsafe.1.adds _ _ rfl
        · cases hfluff
      · exact hinv.keyed x hx
    · refine hinv.keyed x ((exec_shrinks ?_).1 x hx)
      intro txid b e
      by_contra hout
      exact hnew ⟨txid, b, e, by simpa using hout⟩
  settled := by
    intro h hh
    cases o with
    | addTransaction txid b =>
      cases hout : t.shared.hasTransaction txid with
      | true =>
        have hsame : (stemExec N ω t.shared (.addTransaction txid b)).1 = t.shared := if_pos hout
        rw [hsame] at hh ⊢
        exact (hinv.settled h hh).imp_right (owes_after hi id _)
      | false =>
        have hstep : (stemExec N ω t.shared (.addTransaction txid b)).1 =
            { t.shared with stempool := (txid, b) :: t.shared.stempool, owed := txid :: t.shared.owed } := by
          simp [stemExec, StemState.addTransaction, hout]
        rw [hstep] at hh
        rcases mem_cons.mp hh with rfl | hh
        · refine .inl (.inl (hasTransaction_iff.mpr ⟨(h, b), ?_, rfl⟩))
          rw [hstep]
          exact mem_cons_self
        · refine (hinv.settled h hh).imp (fun hk => Kept.exec hk fun x hx _ => ?_) (owes_after hi id _)
          rw [hstep]
          exact mem_cons_of_mem _ hx
    | removeTransaction txid =>
      rcases hinv.settled h hh with hk | howes
      · by_cases htx : h = txid
        · subst htx
          -- the program removes what is known or what it will broadcast
          rcases hinv.threads _ (mem_of_getElem? hi) with hsafe | hfluff
          · rcases hsafe.1.removes h rfl with hknown | howes
            · exact .inl (.inr hknown)
            · exact .inr ⟨_, mem_set (List.getElem?_eq_some_iff.mp hi).1 _, howes _⟩
          · cases hfluff
        · refine .inl (Kept.exec hk fun x hx hxh => mem_filter.mpr ⟨hx, ?_⟩)
          simpa [hxh] using htx
      · exact .inr (owes_after hi id _ howes)
    | clearStemPool =>
      rcases hinv.settled h hh with (hin | hknown) | howes
      · rcases hinv.threads _ (mem_of_getElem? hi) with hsafe | hfluff
        · exact absurd rfl hsafe.1.keeps
        · cases hfluff with
          | clear hc =>
            obtain ⟨x, hx, rfl⟩ := hasTransaction_iff.mp hin
            exact absurd hh (hc x hx)
      · exact .inl (.inr hknown)
      · exact .inr (owes_after hi id _ howes)
    | relayToAll txs =>
      obtain ⟨hold, hout⟩ := mem_filter.mp hh
      have hnot : h ∉ txs.map N.P.cnFastHash := of_decide_eq_true hout
      exact (hinv.settled h hold).imp id (owes_after hi hnot _)
    | dropConnection roundTrip =>
      have hfalse : roundTrip = false := hg
      exact (hinv.settled h hh).imp id (owes_after hi (by simp [Settles, hfalse]) _)
    | incoming blob stem =>
      exact (hinv.settled h hh).imp (fun hk => Kept.exec hk fun _ hx _ => hx) (owes_after hi id _)
    | _ => exact (hinv.settled h hh).imp id (owes_after hi id _)

theorem StemInv.event {t' : StemThreads} {e : ThreadEvent StemCall StemOracle Node} (hinv : StemInv N.P t)
    (hg : StemGuard t e) (hstep : (stemScheduler N).step t e = some t') : StemInv N.P t' := by
  cases (stemScheduler N).stepped hstep with
  | call c =>
    refine ⟨fun h hh => (hinv.settled h hh).imp_right fun ⟨p, hp, ho⟩ => ⟨p, mem_append_left _ hp, ho⟩, ?_, hinv.keyed⟩
    intro p hp
    rcases mem_append.mp hp with hp | hp
    · exact hinv.threads p hp
    · rw [mem_singleton.mp hp]
      exact c.ok N.P t.shared
  | @finish i _ hi =>
    refine ⟨fun h hh => (hinv.settled h hh).imp_right fun ⟨p, hp, ho⟩ => ?_,
      fun p hp => hinv.threads p (mem_of_mem_eraseIdx hp), hinv.keyed⟩
    obtain ⟨j, hj⟩ := mem_iff_getElem?.mp hp
    have hij : j ≠ i := by
      intro e
      subst e
      rw [hi, Option.some.injEq] at hj
      subst hj
      exact ho
    exact ⟨p, mem_eraseIdx_iff_getElem?.mpr ⟨j, hij, hj⟩, ho⟩
  | perform _ hi => exact hinv.perform hi (hg _ hi _ rfl)
  | env _ =>
    exact ⟨hinv.settled, fun p hp => (hinv.threads p hp).imp_right fun hf => hf.frame (fun _ hx => hx) fun _ hh => hh,
      hinv.keyed⟩

theorem stem_inv (h : ((stemScheduler N).machine.lts StemGuard).Reachable t) : StemInv N.P t := by
  refine (Machine.inductive_of_step ?_ ?_).reachable h
  · intro t hinit
    obtain ⟨⟨hpool, howed⟩, hrun⟩ := hinit
    refine ⟨fun h hh => ?_, fun p hp => ?_, fun x hx => ?_⟩
    · rw [howed] at hh
      cases hh
    · rw [hrun] at hp
      cases hp
    · rw [hpool] at hx
      cases hx
  · intro t e t' ht hg hstep
    exact ht.event hg hstep

/-- When nothing else runs, `fluffStemPool` broadcasts all that is left. -/
theorem StemInv.fluffed (hinv : StemInv N.P t) (hrest : t.running = []) (ω : StemOracle) :
    ∃ n t', (stemScheduler N).machine.run t (.call .fluffStemPool :: List.replicate n (.turn 0 ω)) = some t' ∧
      t'.running = [] ∧ t'.shared.stempool = [] ∧ ∀ h ∈ t'.shared.owed, t'.shared.Known h := by
  obtain ⟨s, running⟩ := t
  dsimp only at hrest
  subst hrest
  have hkept : ∀ h ∈ s.owed, s.Kept h := by
    intro h hh
    rcases hinv.settled h hh with hk | ⟨p, hp, -⟩
    · exact hk
    · cases hp
  obtain ⟨node, stempool, wasted, owed, received, invalid⟩ := s
  cases stempool with
  | nil =>
    refine ⟨2, _, rfl, rfl, rfl, fun h hh => (hkept h hh).resolve_left fun hin => ?_⟩
    obtain ⟨x, hx, -⟩ := hasTransaction_iff.mp hin
    cases hx
  | cons y l =>
    refine ⟨5, _, rfl, rfl, rfl, fun h hh => ?_⟩
    obtain ⟨hold, hnot⟩ := mem_filter.mp hh
    refine (hkept h hold).resolve_left fun hin => ?_
    obtain ⟨x, hx, rfl⟩ := hasTransaction_iff.mp hin
    refine of_decide_eq_true hnot ?_
    rw [hinv.keyed x hx]
    exact List.mem_map_of_mem (List.mem_map_of_mem hx)

/-- A transaction that was added to the stem pool and not broadcast since is still there, or
came in fluff mode or was invalid, or is about to be broadcast; once no procedure is running,
`fluffStemPool` broadcasts the rest. -/
theorem stem_not_lost {t : StemThreads} (h : ((stemScheduler N).machine.lts StemGuard).Reachable t) :
    (∀ h ∈ t.shared.owed, t.shared.hasTransaction h = true ∨ h ∈ t.shared.received ∨ h ∈ t.shared.invalid ∨
      ∃ p ∈ t.running, Owes N.P h p) ∧ (t.running = [] → ∀ ω, ∃ n t',
      (stemScheduler N).machine.run t (.call .fluffStemPool :: List.replicate n (.turn 0 ω)) = some t' ∧
        t'.running = [] ∧ t'.shared.stempool = [] ∧
        ∀ h ∈ t'.shared.owed, h ∈ t'.shared.received ∨ h ∈ t'.shared.invalid) := by
  refine ⟨fun x hx => ?_, fun hrest ω => (stem_inv h).fluffed hrest ω⟩
  rcases (stem_inv h).settled x hx with (hin | hr | hi) | howes
  · exact .inl hin
  · exact .inr (.inl hr)
  · exact .inr (.inr (.inl hi))
  · exact .inr (.inr (.inr howes))

end Runs

instance (s : StemThreads) (o : StemOp) : Decidable (OpGuard s o) := by
  cases o <;> unfold OpGuard <;> infer_instance

instance (s : StemThreads) (e : ThreadEvent StemCall StemOracle Node) : Decidable (StemGuard s e) := by
  cases e <;> unfold StemGuard <;> infer_instance

/-! ### A transaction of the stem -/

def stemStart : StemThreads := ⟨⟨flatStart, [], fun _ => 0, [], [], []⟩, []⟩

/-- A peer sends the transfer in stem mode; it is passed on. -/
def stemArrives : List (ThreadEvent StemCall StemOracle Node) :=
  .call (.handleNotifyNewTransactions 7 [toBinaryArray flatSpend] true) :: List.replicate 7 (.turn 0 ⟨0, true⟩)

/-- The same again, from another peer. -/
def stemReturns : List (ThreadEvent StemCall StemOracle Node) :=
  .call (.handleNotifyNewTransactions 8 [toBinaryArray flatSpend] true) :: List.replicate 4 (.turn 0 ⟨0, true⟩)

theorem returning_stem_lost :
    ∃ t, ((stemScheduler flatNode).machine.lts Machine.anyEvent).Reachable t ∧ t.running = [] ∧
      flatSpendId ∈ t.shared.owed ∧ t.shared.hasTransaction flatSpendId = false ∧ flatSpendId ∉ t.shared.received ∧
      flatSpendId ∉ t.shared.invalid ∧ t.shared.node.pool.haveTx flatSpendId = true := by
  obtain ⟨t, hrun, hp⟩ := (Option.any_eq_true _ _).mp (show
    ((stemScheduler flatNode).machine.run stemStart (stemArrives ++ stemReturns)).any (fun t => t.running.isEmpty &&
      decide (flatSpendId ∈ t.shared.owed ∧ t.shared.hasTransaction flatSpendId = false ∧
        flatSpendId ∉ t.shared.received ∧ flatSpendId ∉ t.shared.invalid ∧
        t.shared.node.pool.haveTx flatSpendId = true)) = true by decide +kernel)
  obtain ⟨hrest, hlost⟩ := Bool.and_eq_true_iff.mp hp
  exact ⟨t, Machine.run_reachable (.init ⟨⟨rfl, rfl⟩, rfl⟩) hrun, List.isEmpty_iff.mp hrest, of_decide_eq_true hlost⟩

/-- The transfer is on its way and has not come back. -/
theorem stem_not_lost_flatSpend :
    ∃ t, ((stemScheduler flatNode).machine.lts StemGuard).Reachable t ∧ t.shared.owed = [flatSpendId] ∧
      t.shared.hasTransaction flatSpendId = true ∧
      ∃ n t', (stemScheduler flatNode).machine.run t (.call .fluffStemPool :: List.replicate n (.turn 0 ⟨0, true⟩)) = some t' ∧
        t'.shared.stempool = [] := by
  obtain ⟨t, hrun, hp⟩ := (Option.any_eq_true _ _).mp (show
    ((stemScheduler flatNode).machine.runIf (fun t e => decide (StemGuard t e)) stemStart stemArrives).any
      (fun t => t.running.isEmpty && decide (t.shared.owed = [flatSpendId] ∧ t.shared.received = [] ∧
        t.shared.invalid = [])) = true by decide +kernel)
  obtain ⟨hrest, howed⟩ := Bool.and_eq_true_iff.mp hp
  obtain ⟨howed, hreceived, hinvalid⟩ := of_decide_eq_true howed
  have hrest := List.isEmpty_iff.mp hrest
  have hreach : ((stemScheduler flatNode).machine.lts StemGuard).Reachable t :=
    Machine.runIf_reachable (fun _ _ hg => of_decide_eq_true hg) (.init ⟨⟨rfl, rfl⟩, rfl⟩) hrun
  obtain ⟨hkept, hfluff⟩ := stem_not_lost hreach
  obtain ⟨n, t', hrun', -, hempty, -⟩ := hfluff hrest ⟨0, true⟩
  refine ⟨t, hreach, howed, ?_, n, t', hrun', hempty⟩
  have hown := hkept flatSpendId (by rw [howed]; exact mem_singleton_self _)
  rw [hreceived, hinvalid, hrest] at hown
  simpa using hown

end Discrete.L5
