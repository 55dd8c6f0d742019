import Discrete.L6Wallet.Receipts
import Discrete.L6Wallet.Recipient

/-!
# Deposit addresses (`WalletGreen.cpp`)

A container issues one deposit index after another and renders each as an address. What a
string pays into is said in three places: `pqResolveAddressBucket` reads the bucket off one
of the wallet's own strings, `resolvePqRecipient` gives a payer the keys and the route, and
the ledger's scan attributes the output. Under `singleKeyIndex` the route `T` is the
deposit; under `aggregatedMultikey` each deposit has a spend key of its own.

The container keeps the ledger's keys in step with its own (`Coherent`), so what the scan
makes of an output can be read off its recipient (`Routed`, `Routed.recorded`).

* `deposit_attribution_iff`: in every reachable container, a payment to one of its strings
  is recorded in the bucket the string resolves to, except under `singleKeyIndex` for the
  routes 0 and 2^32 - 1, and change except for the route 0; an index is issued once, and is
  no sentinel exactly when the cursor has not passed `pqMaxDepositRoute`; the buckets'
  balances add up.
* `index_zero_misattributed`: the number with `T = 0` resolves to bucket 0, and what is
  paid to it is recorded in the primary bucket.
-/
namespace Discrete.L6
open UInt32 List Option L1 L2 L3

/-- mirrors PqWallet.h:71-75 -/
structure PqTrackingKeys where
  viewPub : KemPublicKey
  viewSk : KemSecretKey
  spendPub : DsaPublicKey

def pqTrackingKeys (keys : PqWalletKeys) : PqTrackingKeys := ⟨keys.viewPub, keys.viewSk, keys.spendPub⟩

/-- `SeedMaster{}`: the record of a wallet that only watches. -/
def noSeed : SeedMaster := zeroBlob 32

def cryptonotePublicAddressBase58Prefix : UInt64 := 0x3445db

/-- A container with an identity. -/
structure Container where
  testnet : Bool
  trackingKeys : PqTrackingKeys
  primarySeedMaster : SeedMaster
  pqDepositScheme : PqDepositScheme := .aggregatedMultikey
  pqDepositSchemeChosen : Bool := false
  pqNextDepositIndex : UInt32 := 0
  pqLegacyTWindowMaxT : UInt32 := 0
  ledger : Ledger

inductive DepositError where
  | schemeFixed | trackingWallet | exhausted
  deriving DecidableEq, Repr

def DepositError.text : DepositError → String
  | .schemeFixed => "deposit scheme is immutable after container creation"
  | .trackingWallet => "tracking wallet cannot create deposit addresses"
  | .exhausted => "deposit index space exhausted"

namespace Container

/-! ## Issuing -/

/-- mirrors WalletGreen.h:160-162 -/
def getPqFirstDepositIndex (c : Container) : UInt32 := if c.pqDepositScheme = .singleKeyIndex then 1 else 0

/-- mirrors WalletGreen.h:164-167 -/
def getPqDepositCount (c : Container) : UInt32 :=
  let first := c.getPqFirstDepositIndex
  if c.pqNextDepositIndex > first then c.pqNextDepositIndex - first else 0

/-- mirrors WalletGreen.h:170 -/
def getPqDepositIndexAt (c : Container) (ordinal : UInt32) : UInt32 := c.getPqFirstDepositIndex + ordinal

/-- mirrors WalletGreen.cpp:2947-2949 -/
def normalizePqDepositCursor (c : Container) : Container :=
  { c with pqNextDepositIndex := max c.pqNextDepositIndex c.getPqFirstDepositIndex }

section
variable (W : WalletPrimitives)

/-- mirrors WalletGreen.cpp:2236-2244 -/
def syncPqDepositConfigToState (c : Container) : Container :=
  let ledger := c.ledger.setDepositConfig W c.pqDepositScheme c.pqNextDepositIndex
  { c with ledger := { ledger with keys := { ledger.keys with legacyTWindowMaxT := c.pqLegacyTWindowMaxT } } }

/-- mirrors WalletGreen.cpp:2246-2253 -/
def enableLegacyDepositRescan (c : Container) (maxT : UInt32) : Container :=
  { c with
    pqLegacyTWindowMaxT := maxT
    ledger := { c.ledger with keys := { c.ledger.keys with legacyTWindowMaxT := maxT } } }

/-- mirrors WalletGreen.cpp:2934-2945 -/
def setPqDepositScheme (c : Container) (scheme : PqDepositScheme) : Container × Except DepositError Unit :=
  if c.pqDepositSchemeChosen then (c, .error .schemeFixed)
  else
    let c := { c with pqDepositScheme := scheme, pqDepositSchemeChosen := true }
    (c.normalizePqDepositCursor.syncPqDepositConfigToState W, .ok ())

/-- mirrors WalletGreen.cpp:2951-2976 -/
def reservePqDepositIndex (c : Container) : Container × Except DepositError UInt32 :=
  if c.primarySeedMaster = noSeed ∧ c.pqDepositScheme ≠ .singleKeyIndex then (c, .error .trackingWallet)
  else
    let c := { c with pqDepositSchemeChosen := true }.normalizePqDepositCursor
    if c.pqNextDepositIndex = 0xFFFFFFFF then (c, .error .exhausted)
    else
      (({ c with pqNextDepositIndex := c.pqNextDepositIndex + 1 }).syncPqDepositConfigToState W,
        .ok c.pqNextDepositIndex)

/-! ## Rendering and reading addresses -/

/-- mirrors WalletGreen.cpp:2477-2486 -/
def getPqAddress (c : Container) : Bytes :=
  encodePqAddress W.toPrimitives (makePqAddress W.toPrimitives cryptonotePublicAddressBase58Prefix
    c.trackingKeys.viewPub c.trackingKeys.spendPub) (pqBech32Hrp c.testnet)

/-- mirrors WalletGreen.cpp:3015-3028 -/
def pqAccountFingerprint (c : Container) : UInt32 :=
  L2.pqAccountFingerprint W.toPrimitives c.testnet c.trackingKeys.spendPub c.trackingKeys.viewPub

/-- mirrors WalletGreen.cpp:2978-3013 -/
def pqDepositAddress (c : Container) (index : UInt32) (registration : AccountNumber) : Bytes :=
  match c.pqDepositScheme with
  | .singleKeyIndex => registration.toStringWithIndex index (c.pqAccountFingerprint W)
  | .aggregatedMultikey =>
    if c.primarySeedMaster = noSeed then []
    else
      let base := derivePqWalletKeys W c.primarySeedMaster
      encodePqAddress W.toPrimitives (makePqAddress W.toPrimitives cryptonotePublicAddressBase58Prefix base.viewPub
        (deriveDepositSpendKeys W base.seedMaster index).1) (pqBech32Hrp c.testnet)

/-- `registration` is what `pqRegistrationCoords` answers; `none` is a throw.
mirrors WalletGreen.cpp:1153-1172 -/
def getAddress (c : Container) (registration : Option AccountNumber) (index : Nat) : Option Bytes :=
  if index = 0 then some (c.getPqAddress W)
  else
    let ordinal := UInt32.ofNat (index - 1)
    if ordinal ≥ c.getPqDepositCount then none
    else
      let depositIndex := c.getPqDepositIndexAt ordinal
      match c.pqDepositScheme, registration with
      | .singleKeyIndex, none => none
      | .singleKeyIndex, some registration => some (c.pqDepositAddress W depositIndex registration)
      | .aggregatedMultikey, _ => some (c.pqDepositAddress W depositIndex ⟨0, 0⟩)

/-- The loop of `pqResolveAddressBucket` over the deposits issued; a throw ends it. -/
def issuedBucket (c : Container) (registration : Option AccountNumber) (address : Bytes) : List Nat → Option UInt32
  | [] => none
  | ordinal :: ordinals =>
    match c.getAddress W registration (ordinal + 1) with
    | none => none
    | some a =>
      if address = a then some (c.getPqDepositIndexAt (UInt32.ofNat ordinal))
      else c.issuedBucket registration address ordinals

/-- The index of one of the wallet's own account numbers. -/
def ownIndex (c : Container) (address : Bytes) : Option UInt32 :=
  match c.pqDepositScheme, AccountNumber.fromStringWithIndex address with
  | .singleKeyIndex, some (_, subaddrIndex, fingerprint) =>
    if fingerprint = c.pqAccountFingerprint W then some subaddrIndex else none
  | _, _ => none

/-- mirrors WalletGreen.cpp:1665-1704 -/
def pqResolveAddressBucket (c : Container) (registration : Option AccountNumber) (address : Bytes) : Option UInt32 :=
  if address = c.getPqAddress W then some pqPrimaryDeposit
  else
    match c.ownIndex W address with
    | some subaddrIndex => some subaddrIndex
    | none => c.issuedBucket W registration address (List.range c.getPqDepositCount.toNat)

/-- mirrors WalletGreen.cpp:1710-1731 -/
def pqBucketAddress (c : Container) (registration : Option AccountNumber) (bucket : UInt32) : Bytes :=
  if bucket = pqPrimaryDeposit ∨ bucket = pqUnattributedDeposit then c.getPqAddress W
  else
    match c.pqDepositScheme, registration with
    | .singleKeyIndex, none => c.getPqAddress W
    | _, registration =>
      let address := c.pqDepositAddress W bucket (registration.getD ⟨0, 0⟩)
      if address = [] then c.getPqAddress W else address

/-- mirrors WalletGreen.cpp:3030-3053 -/
def pqChangeTemplate (c : Container) (depositIndex : UInt32) : PqSendOutput :=
  let keys := derivePqWalletKeys W c.primarySeedMaster
  if depositIndex = pqPrimaryDeposit then ⟨keys.viewPub, keys.spendPub, 0, 0, 0⟩
  else
    match c.pqDepositScheme with
    | .singleKeyIndex => ⟨keys.viewPub, keys.spendPub, 0, depositIndex.toUInt64, 0⟩
    | .aggregatedMultikey => ⟨keys.viewPub, (deriveDepositSpendKeys W keys.seedMaster depositIndex).1, 0, 0, 0⟩

end
end Container

/-! ## Runs -/

/-- A container and the indices it has handed out, the latest first. -/
structure Issuing where
  container : Container
  issued : List UInt32

inductive ContainerEvent where
  | setPqDepositScheme (scheme : PqDepositScheme)
  | reservePqDepositIndex
  | enableLegacyDepositRescan (maxT : UInt32)
  | sync (e : LedgerEvent)

/-- What the synchronizer does to the ledger: the deposit configuration is the container's. -/
def LedgerEvent.scans : LedgerEvent → Bool
  | .process _ _ _ | .rollback _ | .removeUnconfirmed _ | .setLastScannedHeight _ => true
  | .growDeposits _ | .setLegacyTWindowRescan _ => false

section
variable (W : WalletPrimitives) (V : TxView)

def Issuing.step (x : Issuing) : ContainerEvent → Option Issuing
  | .setPqDepositScheme scheme => some { x with container := (x.container.setPqDepositScheme W scheme).1 }
  | .reservePqDepositIndex =>
    let r := x.container.reservePqDepositIndex W
    some ⟨r.1, match r.2 with
      | .ok reserved => reserved :: x.issued
      | .error _ => x.issued⟩
  | .enableLegacyDepositRescan maxT => some { x with container := x.container.enableLegacyDepositRescan maxT }
  | .sync e =>
    if e.scans then (x.container.ledger.step W V e).map fun L => { x with container.ledger := L } else none

/-- The ledger of a new consumer, with the seed or, for a tracking wallet, without.
mirrors WalletGreen.cpp:2186-2221 -/
def Container.fresh (testnet : Bool) (keys : PqTrackingKeys) (seedMaster : SeedMaster) : Container :=
  Container.syncPqDepositConfigToState W
    { testnet := testnet
      trackingKeys := keys
      primarySeedMaster := seedMaster
      ledger := .fresh ⟨keys.viewSk, keys.spendPub, if seedMaster = noSeed then none else some seedMaster,
        .aggregatedMultikey, 0, 0, []⟩ }

/-- A wallet of `seed`, or one that watches it. -/
def containerMachine : Machine Issuing ContainerEvent where
  Init x := ∃ testnet seed seedMaster, (seedMaster = seed ∨ seedMaster = noSeed) ∧
    x = ⟨.fresh W testnet (pqTrackingKeys (derivePqWalletKeys W seed)) seedMaster, []⟩
  step := Issuing.step W V

end

section
variable {W : WalletPrimitives} {V : TxView} {c : Container}

/-- The first `n` deposit keys of a seed. -/
def depositKeys (W : WalletPrimitives) (seed : SeedMaster) (n : Nat) : List DsaPublicKey :=
  (List.range n).map fun i => (deriveDepositSpendKeys W seed (UInt32.ofNat i)).1

/-- The ledger scans for the container's keys, scheme and deposits. -/
structure Coherent (W : WalletPrimitives) (c : Container) : Prop where
  identity : ∃ seed, c.trackingKeys = pqTrackingKeys (derivePqWalletKeys W seed) ∧
    (c.primarySeedMaster = seed ∨ c.primarySeedMaster = noSeed)
  viewSk : c.ledger.keys.viewSk = c.trackingKeys.viewSk
  spendPub : c.ledger.keys.spendPub = c.trackingKeys.spendPub
  seed : c.ledger.keys.seedMaster = if c.primarySeedMaster = noSeed then none else some c.primarySeedMaster
  scheme : c.ledger.keys.depositScheme = c.pqDepositScheme
  count : c.ledger.keys.depositCount = c.pqNextDepositIndex
  cache : ∃ n ≤ c.pqNextDepositIndex.toNat, c.ledger.keys.depositSpendPubs = depositKeys W c.primarySeedMaster n
  unchosen : c.pqDepositSchemeChosen = false → c.pqNextDepositIndex = 0
  watching : c.primarySeedMaster = noSeed → c.pqDepositScheme = .aggregatedMultikey → c.pqNextDepositIndex = 0

/-- The ledger follows a change of the scheme or of the cursor. -/
theorem Coherent.reconfigure (h : Coherent W c) {scheme : PqDepositScheme} {chosen : Bool} {next : UInt32}
    (hle : c.pqNextDepositIndex ≤ next) (hchosen : chosen = false → next = 0)
    (hwatch : c.primarySeedMaster = noSeed → scheme = .aggregatedMultikey → next = 0) :
    Coherent W (Container.syncPqDepositConfigToState W
      { c with pqDepositScheme := scheme, pqDepositSchemeChosen := chosen, pqNextDepositIndex := next }) := by
  obtain ⟨n, hn, hcache⟩ := h.cache
  have hle := le_iff_toNat_le.mp hle
  -- what is left of the cache before the missing keys are derived
  obtain ⟨m, hm, hkept⟩ : ∃ m ≤ next.toNat,
      (c.ledger.keys.withConfig scheme next).depositSpendPubs = depositKeys W c.primarySeedMaster m := by
    by_cases hs : scheme = c.ledger.keys.depositScheme
    · exact ⟨n, by omega, by rw [LedgerKeys.withConfig, if_neg (not_not.mpr hs), hcache]⟩
    · exact ⟨0, Nat.zero_le _, by rw [LedgerKeys.withConfig, if_pos hs]; rfl⟩
  have hkeys : ∃ m ≤ next.toNat, (c.ledger.keys.withConfig scheme next).ensureDepositKeys W next =
      { c.ledger.keys.withConfig scheme next with depositSpendPubs := depositKeys W c.primarySeedMaster m } := by
    cases scheme with
    | singleKeyIndex => exact ⟨m, hm, by rw [← hkept]; rfl⟩
    | aggregatedMultikey =>
      by_cases hseed : c.primarySeedMaster = noSeed
      · exact ⟨0, Nat.zero_le _, ensureDepositKeys_watching next rfl (h.seed.trans (if_pos hseed))⟩
      · exact ⟨m + (next.toNat - m), by omega, ensureDepositKeys_cache next rfl (h.seed.trans (if_neg hseed)) hkept⟩
  obtain ⟨m, hm, hkeys⟩ := hkeys
  refine
    { identity := h.identity, viewSk := ?_, spendPub := ?_, seed := ?_, scheme := ?_, count := ?_,
      cache := ⟨m, hm, ?_⟩, unchosen := hchosen, watching := hwatch }
  all_goals
    simp only [Container.syncPqDepositConfigToState, Ledger.setDepositConfig, hkeys]
  · exact h.viewSk
  · exact h.spendPub
  · exact h.seed
  · rfl
  · rfl

theorem Coherent.fresh (testnet : Bool) {seed seedMaster : SeedMaster} (h : seedMaster = seed ∨ seedMaster = noSeed) :
    Coherent W (.fresh W testnet (pqTrackingKeys (derivePqWalletKeys W seed)) seedMaster) := by
  have hbare : Coherent W
      { testnet := testnet
        trackingKeys := pqTrackingKeys (derivePqWalletKeys W seed)
        primarySeedMaster := seedMaster
        ledger := .fresh ⟨(derivePqWalletKeys W seed).viewSk, (derivePqWalletKeys W seed).spendPub,
          if seedMaster = noSeed then none else some seedMaster, .aggregatedMultikey, 0, 0, []⟩ } :=
    { identity := ⟨seed, rfl, h⟩, viewSk := rfl, spendPub := rfl, seed := rfl, scheme := rfl, count := rfl
      cache := ⟨0, Nat.zero_le _, rfl⟩, unchosen := fun _ => rfl, watching := fun _ _ => rfl }
  exact hbare.reconfigure (UInt32.le_refl 0) (fun _ => rfl) fun _ _ => rfl

theorem Coherent.of_keys (h : Coherent W c) {L : Ledger} (hkeys : L.keys = c.ledger.keys) :
    Coherent W { c with ledger := L } where
  identity := h.identity
  viewSk := by rw [hkeys]; exact h.viewSk
  spendPub := by rw [hkeys]; exact h.spendPub
  seed := by rw [hkeys]; exact h.seed
  scheme := by rw [hkeys]; exact h.scheme
  count := by rw [hkeys]; exact h.count
  cache := by rw [hkeys]; exact h.cache
  unchosen := h.unchosen
  watching := h.watching

theorem LedgerEvent.keys_of_scans {e : LedgerEvent} (he : e.scans = true) {L L' : Ledger} (h : L.step W V e = some L') :
    L'.keys = L.keys := by
  cases e with
  | process txid height timestamp =>
    obtain ⟨tx, -, rfl⟩ := map_eq_some_iff.mp h
    exact L.keys_processTransaction tx txid height timestamp
  | growDeposits | setLegacyTWindowRescan => cases he
  | rollback | removeUnconfirmed | setLastScannedHeight =>
    obtain rfl := some.inj h
    rfl

theorem toNat_max (a b : UInt32) : (max a b).toNat = max a.toNat b.toNat := by
  show (if a ≤ b then b else a).toNat = _
  split
  · rename_i h
    rw [Nat.max_eq_right (le_iff_toNat_le.mp h)]
  · rename_i h
    rw [Nat.max_eq_left (le_iff_toNat_le.not.mp h |> Nat.le_of_not_le)]

theorem getPqFirstDepositIndex_le (c : Container) : c.getPqFirstDepositIndex.toNat ≤ 1 := by
  unfold Container.getPqFirstDepositIndex
  split <;> decide

/-- What a reservation that succeeds has done. -/
structure Reserved (W : WalletPrimitives) (c c' : Container) (reserved : UInt32) : Prop where
  spends : c.primarySeedMaster = noSeed → c.pqDepositScheme = .singleKeyIndex
  index : reserved = max c.pqNextDepositIndex c.getPqFirstDepositIndex
  room : reserved ≠ 0xFFFFFFFF
  after : c' = Container.syncPqDepositConfigToState W
    { c with pqDepositSchemeChosen := true, pqNextDepositIndex := reserved + 1 }

variable {reserved : UInt32}

theorem Reserved.of_ok (h : (c.reservePqDepositIndex W).2 = .ok reserved) :
    Reserved W c (c.reservePqDepositIndex W).1 reserved := by
  unfold Container.reservePqDepositIndex at h ⊢
  split at h
  · cases h
  · rename_i hspends
    rw [if_neg hspends]
    dsimp only at h ⊢
    split at h
    · cases h
    · rename_i hroom
      rw [if_neg hroom]
      cases h
      exact ⟨fun hseed => Classical.byContradiction fun hs => hspends ⟨hseed, hs⟩, rfl, hroom, rfl⟩

/-- A refused reservation changes at most the mark that the scheme is chosen. -/
theorem reservePqDepositIndex_error {e : DepositError} (h : (c.reservePqDepositIndex W).2 = .error e) :
    (c.reservePqDepositIndex W).1 = c ∨ (c.reservePqDepositIndex W).1 = { c with pqDepositSchemeChosen := true } := by
  unfold Container.reservePqDepositIndex at h ⊢
  split at h
  · rename_i hspends
    rw [if_pos hspends]
    exact .inl rfl
  · rename_i hspends
    rw [if_neg hspends]
    dsimp only at h ⊢
    split at h
    · rename_i hfull
      rw [if_pos hfull]
      -- the cursor was there before: the first index is 0 or 1
      have hfull' : max c.pqNextDepositIndex c.getPqFirstDepositIndex = 0xFFFFFFFF := hfull
      have hmax := congrArg UInt32.toNat hfull'
      rw [toNat_max, show (0xFFFFFFFF : UInt32).toNat = 0xFFFFFFFF from rfl] at hmax
      have hfirst := getPqFirstDepositIndex_le c
      have hnext : c.pqNextDepositIndex = 0xFFFFFFFF := UInt32.toNat_inj.mp (by
        rw [show (0xFFFFFFFF : UInt32).toNat = 0xFFFFFFFF from rfl]
        omega)
      right
      show { c with pqDepositSchemeChosen := true
                    pqNextDepositIndex := max c.pqNextDepositIndex c.getPqFirstDepositIndex } = _
      rw [hfull', ← hnext]
    · cases h

variable {c' : Container}

theorem Reserved.cursor_le (h : Reserved W c c' reserved) : c.pqNextDepositIndex ≤ reserved := by
  rw [le_iff_toNat_le, h.index, toNat_max]
  exact Nat.le_max_left _ _

theorem Reserved.toNat_succ (h : Reserved W c c' reserved) : (reserved + 1).toNat = reserved.toNat + 1 := by
  have hlt := reserved.toNat_lt
  have hne : reserved.toNat ≠ 0xFFFFFFFF := fun e => h.room (UInt32.toNat_inj.mp e)
  rw [UInt32.toNat_add, show (1 : UInt32).toNat = 1 from rfl]
  omega

theorem Coherent.reserve (h : Coherent W c) (hr : Reserved W c c' reserved) : Coherent W c' := by
  rw [hr.after]
  refine h.reconfigure ?_ (fun hf => by cases hf) fun hseed hs => ?_
  · have := le_iff_toNat_le.mp hr.cursor_le
    rw [le_iff_toNat_le, hr.toNat_succ]
    omega
  · rw [hr.spends hseed] at hs
    cases hs

theorem Coherent.refused (h : Coherent W c) {e : DepositError} (hr : (c.reservePqDepositIndex W).2 = .error e) :
    Coherent W (c.reservePqDepositIndex W).1 := by
  rcases reservePqDepositIndex_error hr with hc | hc
  · rw [hc]
    exact h
  · rw [hc]
    exact ⟨h.identity, h.viewSk, h.spendPub, h.seed, h.scheme, h.count, h.cache, nofun, h.watching⟩

theorem Coherent.setPqDepositScheme (h : Coherent W c) (scheme : PqDepositScheme) :
    Coherent W (c.setPqDepositScheme W scheme).1 := by
  unfold Container.setPqDepositScheme
  split
  · exact h
  · rename_i hchosen
    have hnext : c.pqNextDepositIndex = 0 := h.unchosen (Bool.eq_false_iff.mpr hchosen)
    refine h.reconfigure ?_ (fun hf => by cases hf) fun _ hs => ?_
    · rw [hnext]
      exact UInt32.zero_le
    · show max c.pqNextDepositIndex (if scheme = .singleKeyIndex then 1 else 0) = 0
      rw [hnext, show scheme = .aggregatedMultikey from hs]
      rfl

/-! ### Every reachable container -/

structure IssuingInv (W : WalletPrimitives) (x : Issuing) : Prop where
  coherent : Coherent W x.container
  nodup : x.issued.Nodup
  below : ∀ d ∈ x.issued, d < x.container.pqNextDepositIndex

variable {x : Issuing}

theorem IssuingInv.reserve (h : IssuingInv W x) (hr : Reserved W x.container c' reserved) :
    IssuingInv W ⟨c', reserved :: x.issued⟩ := by
  have hle := le_iff_toNat_le.mp hr.cursor_le
  have hnext : c'.pqNextDepositIndex = reserved + 1 := by rw [hr.after]; rfl
  refine ⟨h.coherent.reserve hr, nodup_cons.mpr ⟨fun hmem => ?_, h.nodup⟩, fun d hd => ?_⟩
  · have := lt_iff_toNat_lt.mp (h.below reserved hmem)
    omega
  · show d < c'.pqNextDepositIndex
    rw [hnext, lt_iff_toNat_lt, hr.toNat_succ]
    rcases mem_cons.mp hd with rfl | hd
    · omega
    · have := lt_iff_toNat_lt.mp (h.below d hd)
      omega

theorem IssuingInv.step {y : Issuing} {e : ContainerEvent} (h : IssuingInv W x) (hstep : x.step W V e = some y) :
    IssuingInv W y := by
  cases e with
  | setPqDepositScheme scheme =>
    obtain rfl := some.inj hstep
    refine ⟨h.coherent.setPqDepositScheme scheme, h.nodup, fun d hd => ?_⟩
    have hd := h.below d hd
    show d < (x.container.setPqDepositScheme W scheme).1.pqNextDepositIndex
    unfold Container.setPqDepositScheme
    split
    · exact hd
    · rename_i hchosen
      rw [h.coherent.unchosen (Bool.eq_false_iff.mpr hchosen)] at hd
      exact absurd hd UInt32.not_lt_zero
  | reservePqDepositIndex =>
    obtain rfl := some.inj hstep
    cases hr : (x.container.reservePqDepositIndex W).2 with
    | ok reserved => exact h.reserve (.of_ok hr)
    | error e =>
      have hnext : (x.container.reservePqDepositIndex W).1.pqNextDepositIndex = x.container.pqNextDepositIndex := by
        rcases reservePqDepositIndex_error hr with hc | hc <;> rw [hc]
      refine ⟨h.coherent.refused hr, h.nodup, fun d hd => ?_⟩
      show d < (x.container.reservePqDepositIndex W).1.pqNextDepositIndex
      rw [hnext]
      exact h.below d hd
  | enableLegacyDepositRescan maxT =>
    obtain rfl := some.inj hstep
    have hcoh := h.coherent
    exact ⟨⟨hcoh.identity, hcoh.viewSk, hcoh.spendPub, hcoh.seed, hcoh.scheme, hcoh.count, hcoh.cache, hcoh.unchosen,
      hcoh.watching⟩, h.nodup, h.below⟩
  | sync e =>
    rw [Issuing.step] at hstep
    split at hstep
    · rename_i hscans
      obtain ⟨L, hL, rfl⟩ := map_eq_some_iff.mp hstep
      exact ⟨h.coherent.of_keys (LedgerEvent.keys_of_scans hscans hL), h.nodup, h.below⟩
    · cases hstep

theorem IssuingInv.init (h : (containerMachine W V).Init x) : IssuingInv W x := by
  obtain ⟨testnet, seed, seedMaster, hseed, rfl⟩ := h
  exact ⟨.fresh testnet hseed, nodup_nil, fun d hd => by cases hd⟩

theorem issuingInv_reachable (h : ((containerMachine W V).lts Machine.anyEvent).Reachable x) : IssuingInv W x :=
  (Machine.inductive_of_step IssuingInv.init fun hx _ hstep => hx.step hstep).reachable h

end

/-! ## What the scan makes of an output -/

/-- An output on its way to the ledger: the transaction that carries it, where, and the
randomness it was built with. -/
structure Delivery where
  tx : TransactionPrefix
  txid : Hash
  height : UInt32
  timestamp : UInt64
  position : Nat
  coins : OutputCoins

section
variable (W : WalletPrimitives)

/-- The output was built for `so`. -/
structure Delivery.Carries (p : Delivery) (so : PqSendOutput) : Prop where
  version : ¬ p.tx.version < transactionVersion1
  length : p.tx.outputs.length < 2 ^ 32
  built : ∃ b, buildPqOutput W so.recipientViewPub so.recipientSpendPub (pqTransactionInputsHash W p.tx)
      (UInt32.ofNat p.position) so.amount so.subaddrIndexT p.coins = some b ∧
    p.tx.outputs[p.position]? = some ⟨so.amount, so.unlockHeight, .pq ⟨b.kemCt.val, b.encPayload, b.spendCommit⟩⟩

/-- The nullifier that spending the output under `owner` will reveal. -/
def Delivery.nullifier (p : Delivery) (owner : DsaPublicKey) : Hash :=
  L2.nullifier W.toPrimitives owner p.coins.rho p.txid (UInt32.ofNat p.position)

/-- The ledger sees the output for the first time, and nullifiers do not collide. -/
structure Delivery.New (p : Delivery) (L : Ledger) (owner : DsaPublicKey) : Prop where
  unseen : L.outputs.find (p.nullifier W owner) = none
  distinct : ((receipts W (L.scanningKeys W) p.tx p.height).map fun r => r.nullifier W p.txid).Nodup

/-- The bucket in which the ledger records the output when it processes the transaction. -/
def Delivery.recordedIn (p : Delivery) (L : Ledger) (owner : DsaPublicKey) : Option UInt32 :=
  ((L.processTransaction W p.tx p.txid p.height p.timestamp).1.outputs.find (p.nullifier W owner)).map
    PqWalletOutput.depositIndex

/-- The spend keys of a wallet with a key for each deposit. -/
def Container.spendKey (c : Container) : Option UInt32 → DsaPublicKey
  | none => c.trackingKeys.spendPub
  | some d => (deriveDepositSpendKeys W c.primarySeedMaster d).1

/-- The commitment names one of the wallet's keys, and an output sealed in the new context
does not decrypt in the legacy one. -/
structure Delivery.Unambiguous (p : Delivery) (c : Container) : Prop where
  commitment : Set.InjOn (fun d => spendCommit W.toPrimitives (c.spendKey W d) p.coins.rho)
    { d | ∀ k ∈ d, k < c.pqNextDepositIndex }
  legacy : scanModeOf p.tx = .compatible → ∀ out ∈ p.tx.outputs[p.position]?,
    ∀ so ∈ scanOutput (UInt32.ofNat p.position) out, tryDecrypt W (W.kemDecaps c.trackingKeys.viewSk so.kemCt)
        (legacyOutContextV1 W (pqTransactionInputsHash W p.tx) so.kemCt so.outputIndex 0) so = none

/-- The container's ledger meets the output for the first time. -/
structure Delivery.Arrives (p : Delivery) (c : Container) (so : PqSendOutput) : Prop where
  carries : p.Carries W so
  new : p.New W c.ledger so.recipientSpendPub
  clear : c.pqDepositScheme = .aggregatedMultikey → p.Unambiguous W c

/-- Where an output with this recipient belongs. -/
inductive Routed (c : Container) (so : PqSendOutput) : UInt32 → Prop where
  | index : c.pqDepositScheme = .singleKeyIndex → so.recipientSpendPub = c.trackingKeys.spendPub →
      Routed c so (pqDepositIndexForRoute so.subaddrIndexT)
  | primary : c.pqDepositScheme = .aggregatedMultikey → so.recipientSpendPub = c.trackingKeys.spendPub →
      Routed c so pqPrimaryDeposit
  | deposit (d : UInt32) : c.pqDepositScheme = .aggregatedMultikey → c.primarySeedMaster ≠ noSeed →
      d < c.pqNextDepositIndex → so.recipientSpendPub = (deriveDepositSpendKeys W c.primarySeedMaster d).1 →
      so.subaddrIndexT = 0 → Routed c so d

end

section
variable {W : WalletPrimitives} {c : Container} {p : Delivery} {so : PqSendOutput}

theorem Delivery.Carries.mem (h : p.Carries W so) :
    ∃ b, buildPqOutput W so.recipientViewPub so.recipientSpendPub (pqTransactionInputsHash W p.tx)
        (UInt32.ofNat p.position) so.amount so.subaddrIndexT p.coins = some b ∧
      p.tx.outputs[p.position]? = some ⟨so.amount, so.unlockHeight, .pq ⟨b.kemCt.val, b.encPayload, b.spendCommit⟩⟩ ∧
      (⟨so.amount, so.unlockHeight, .pq ⟨b.kemCt.val, b.encPayload, b.spendCommit⟩⟩, UInt32.ofNat p.position) ∈
        indexedOutputs p.tx := by
  obtain ⟨b, hb, hget⟩ := h.built
  refine ⟨b, hb, hget, List.mem_map.mpr ⟨(_, p.position), ?_, rfl⟩⟩
  rw [mem_zipIdx_iff_getElem?]
  exact hget

/-- What the scan sees of a built output. -/
theorem scanOutput_built (hW : W.Correct) {viewPub : KemPublicKey} {spendPub : DsaPublicKey} {ih : Hash} {i : UInt32}
    {amount t : UInt64} {coins : OutputCoins} {b : PqBuiltOutput} (unlockHeight : UInt64)
    (h : buildPqOutput W viewPub spendPub ih i amount t coins = some b) :
    scanOutput i ⟨amount, unlockHeight, .pq ⟨b.kemCt.val, b.encPayload, b.spendCommit⟩⟩ = some (b.onChain i amount) := by
  have hvalid : pqOutputFieldsValid ⟨b.kemCt.val, b.encPayload, b.spendCommit⟩ = true := by
    rw [pqOutputFieldsValid, Bool.and_eq_true, decide_eq_true_eq, decide_eq_true_eq]
    exact ⟨b.kemCt.property, buildPqOutput_sizes hW h⟩
  rw [scanOutput]
  dsimp only
  rw [if_pos hvalid, PqBuiltOutput.onChain]
  congr 2
  exact Subtype.ext (toArray_val b.kemCt.property)

/-- The keys with which the ledger scans for the container. -/
structure ScansFor (W : WalletPrimitives) (c : Container) (K : LedgerKeys) : Prop where
  keys : K.scanKeys = ⟨c.trackingKeys.viewSk, c.trackingKeys.spendPub⟩
  scheme : K.depositScheme = c.pqDepositScheme
  count : K.depositCount = c.pqNextDepositIndex
  deposits : c.pqDepositScheme = .aggregatedMultikey → c.primarySeedMaster ≠ noSeed →
    K.depositSpendPubs = depositKeys W c.primarySeedMaster c.pqNextDepositIndex.toNat

theorem ensureDepositKeys_rest (K : LedgerKeys) (count : UInt32) :
    K.ensureDepositKeys W count = { K with depositSpendPubs := (K.ensureDepositKeys W count).depositSpendPubs } := by
  unfold LedgerKeys.ensureDepositKeys
  split
  · rfl
  · split <;> rfl

theorem Coherent.scansFor (h : Coherent W c) : ScansFor W c (c.ledger.scanningKeys W) := by
  have hrest := ensureDepositKeys_rest (W := W) c.ledger.keys c.ledger.keys.depositCount
  refine ⟨?_, ?_, ?_, fun hs hseed => ?_⟩
  · rw [Ledger.scanningKeys, hrest, LedgerKeys.scanKeys, h.viewSk, h.spendPub]
  · rw [Ledger.scanningKeys, hrest]
    exact h.scheme
  · rw [Ledger.scanningKeys, hrest]
    exact h.count
  · obtain ⟨n, hn, hcache⟩ := h.cache
    rw [Ledger.scanningKeys, ensureDepositKeys_cache _ (h.scheme.trans hs) (h.seed.trans (if_neg hseed)) hcache, h.count,
      Nat.add_sub_cancel' hn]
    rfl

variable {b : UInt32}

/-- The receipt of an output that belongs in bucket `b`. -/
theorem Routed.recognized (hW : W.Correct) {K : LedgerKeys} (hK : ScansFor W c K) (hc : Coherent W c)
    (hroute : Routed W c so b) (hview : so.recipientViewPub = c.trackingKeys.viewPub) (hp : p.Carries W so)
    (hclear : c.pqDepositScheme = .aggregatedMultikey → p.Unambiguous W c) :
    ⟨UInt32.ofNat p.position, so.amount, p.coins.rho, so.unlockHeight, so.recipientSpendPub, b⟩ ∈
      receipts W K p.tx p.height := by
  obtain ⟨built, hbuilt, hget, hmem⟩ := hp.mem
  refine mem_receipts.mpr ⟨_, hmem, .pq ?_⟩
  obtain ⟨seed, hkeys, hseed⟩ := hc.identity
  have hscan := scanOutput_built hW so.unlockHeight hbuilt
  have hsk : c.trackingKeys.viewSk = (deriveViewKeys W seed).2 := by rw [hkeys]; rfl
  have hvp : so.recipientViewPub = (deriveViewKeys W seed).1 := by rw [hview, hkeys]; rfl
  rw [hvp] at hbuilt
  have hown := scanPqOutput_built hW seed so.recipientSpendPub _ _ _ _ p.coins (scanModeOf p.tx) hbuilt
  have hspend : K.spendPub = c.trackingKeys.spendPub := congrArg PqScanKeys.spendPub hK.keys
  dsimp only
  rw [recognizePq, hscan, bind_some, hK.scheme, hK.keys, hsk]
  cases hroute with
  | index hs howner =>
    rw [howner] at hown
    rw [hs, howner]
    dsimp only
    rw [scanPqOutputWithLegacyTWindow_of_scan hown, hspend]
    rfl
  | primary hs howner =>
    rw [howner] at hown
    rw [hs, howner]
    dsimp only
    rw [hown, hspend]
  | deposit _ hs hspends hlt howner ht =>
    have hlt := lt_iff_toNat_lt.mp hlt
    have hclear := hclear hs
    have hcommit : ∀ {x : Option UInt32}, (∀ k ∈ x, k < c.pqNextDepositIndex) → x ≠ some b →
        spendCommit W.toPrimitives (c.spendKey W x) p.coins.rho ≠
          spendCommit W.toPrimitives so.recipientSpendPub p.coins.rho := by
      intro x hx hne e
      rw [howner] at e
      exact hne (hclear.commitment hx (fun k hk => by cases hk; exact lt_iff_toNat_lt.mpr hlt) e)
    -- the primary key does not recognise the output, so the deposit keys are tried
    have hother : scanPqOutput W ⟨(deriveViewKeys W seed).2, c.trackingKeys.spendPub⟩ (pqTransactionInputsHash W p.tx)
        (built.onChain (UInt32.ofNat p.position) so.amount) (scanModeOf p.tx) = none := by
      refine scanPqOutput_other hW seed hbuilt (hcommit (x := none) (by simp) (by simp)) fun hmode => ?_
      have := hclear.legacy hmode _ hget _ hscan
      rwa [hsk] at this
    have hkeyAt : (depositKeys W c.primarySeedMaster c.pqNextDepositIndex.toNat)[b.toNat]? =
        some so.recipientSpendPub := by
      rw [depositKeys, getElem?_map, getElem?_range hlt, map_some, UInt32.ofNat_toNat, howner]
    rw [ht] at hbuilt
    have hfind := scanPqOutputAggregate_built hW seed (scanModeOf p.tx) hbuilt hkeyAt fun j hj q hq => by
      rw [depositKeys, getElem?_map, getElem?_range (by omega), map_some, some.injEq] at hq
      rw [← hq]
      have hjnat : (UInt32.ofNat j).toNat = j := by
        have := b.toNat_lt
        rw [toNat_ofNat']
        omega
      refine hcommit (x := some (UInt32.ofNat j)) (fun k hk => ?_) fun e => ?_
      · cases hk
        rw [lt_iff_toNat_lt, hjnat]
        omega
      · have := congrArg UInt32.toNat (some.inj e)
        omega
    have hpos : ¬ K.depositCount = 0 := by
      rw [hK.count]
      intro e
      rw [e] at hlt
      exact absurd hlt (Nat.not_lt_zero _)
    have hsk' : K.viewSk = (deriveViewKeys W seed).2 := (congrArg PqScanKeys.viewSk hK.keys).trans hsk
    rw [hs]
    dsimp only
    rw [hother, hK.deposits hs hspends, hsk']
    dsimp only
    rw [if_neg hpos, hfind, bind_some, hkeyAt, map_some, UInt32.ofNat_toNat]

/-- The ledger records an output where its recipient says. -/
theorem Routed.recorded (hW : W.Correct) (hc : Coherent W c) (hroute : Routed W c so b)
    (hview : so.recipientViewPub = c.trackingKeys.viewPub) (hp : p.Arrives W c so) :
    p.recordedIn W c.ledger so.recipientSpendPub = some b := by
  have hr := hroute.recognized hW hc.scansFor hc hview hp.carries hp.clear
  have hfind := Scan.find_receives (k := p.height) (s := (spentNullifiers W p.tx).foldl (Scan.spend p.txid p.height)
    ⟨c.ledger.outputs, 0, 0, false⟩) hp.new.distinct _ hr
  rw [Scan.find_spends] at hfind
  rw [Delivery.recordedIn, Ledger.processTransaction, if_neg hp.carries.version]
  dsimp only
  rw [Ledger.scanTransaction]
  refine (congrArg (Option.map PqWalletOutput.depositIndex) hfind).trans ?_
  have hunseen := hp.new.unseen
  rw [Delivery.nullifier] at hunseen
  rw [Receipt.nullifier, hunseen]
  rfl

/-! ## Which strings are the wallet's -/

/-- The scan turns an index back into itself, except for the primary route and the upper
sentinel. -/
theorem pqDepositIndexForRoute_eq_iff (t : UInt32) :
    pqDepositIndexForRoute t.toUInt64 = t ↔ t ≠ 0 ∧ t ≠ 0xFFFFFFFF := by
  have hlt := t.toNat_lt
  have hzero : t.toUInt64 = 0 ↔ t = 0 := by
    rw [← UInt64.toNat_inj, ← UInt32.toNat_inj, toNat_toUInt64]
    rfl
  have hback : t.toUInt64.toUInt32 = t := toUInt32_toUInt64 t
  have hmax : t.toUInt64 > pqMaxDepositRoute ↔ 0xFFFFFFFD < t.toNat := by
    rw [gt_iff_lt, UInt64.lt_iff_toNat_lt, toNat_toUInt64]
    rfl
  unfold pqDepositIndexForRoute
  split
  · rename_i h
    rw [hzero.mp h]
    decide
  · rename_i h
    have hne : t ≠ 0 := fun e => h (hzero.mpr e)
    split
    · rename_i hgt
      have hgt := hmax.mp hgt
      simp only [ne_eq, hne, not_false_eq_true, true_and, ← UInt32.toNat_inj]
      show 0xFFFFFFFE = t.toNat ↔ ¬ t.toNat = 0xFFFFFFFF
      omega
    · rename_i hle
      have hle := hmax.not.mp hle
      rw [hback]
      simp only [ne_eq, hne, not_false_eq_true, true_and, true_iff, ← UInt32.toNat_inj]
      show ¬ t.toNat = 0xFFFFFFFF
      omega

/-- A string that the container takes for its own, and the bucket it names. -/
inductive Own (W : WalletPrimitives) (c : Container) (s : Bytes) : UInt32 → Prop where
  | primary : s = c.getPqAddress W → Own W c s pqPrimaryDeposit
  | index (acct : AccountNumber) (t : UInt32) : s ≠ c.getPqAddress W → c.pqDepositScheme = .singleKeyIndex →
      AccountNumber.fromStringWithIndex s = some (acct, t, c.pqAccountFingerprint W) → Own W c s t
  | deposit (d : UInt32) : s ≠ c.getPqAddress W → c.pqDepositScheme = .aggregatedMultikey →
      d < c.pqNextDepositIndex → s = c.pqDepositAddress W d ⟨0, 0⟩ → Own W c s d

variable {s : Bytes}

theorem issuedBucket_some {registration : Option AccountNumber} : ∀ {l : List Nat},
    c.issuedBucket W registration s l = some b →
      ∃ ordinal ∈ l, c.getAddress W registration (ordinal + 1) = some s ∧ b = c.getPqDepositIndexAt (UInt32.ofNat ordinal)
  | [], h => by cases h
  | ordinal :: l, h => by
    rw [Container.issuedBucket] at h
    split at h
    · cases h
    · rename_i a ha
      split at h
      · rename_i hs
        exact ⟨ordinal, mem_cons_self, by rw [ha, hs], (some.inj h).symm⟩
      · obtain ⟨ordinal', hmem, hrest⟩ := issuedBucket_some h
        exact ⟨ordinal', mem_cons_of_mem _ hmem, hrest⟩

theorem ownIndex_some {t : UInt32} : c.ownIndex W s = some t ↔ c.pqDepositScheme = .singleKeyIndex ∧
    ∃ acct, AccountNumber.fromStringWithIndex s = some (acct, t, c.pqAccountFingerprint W) := by
  unfold Container.ownIndex
  split
  · rename_i acct t' fp hs hparse
    rw [hs, hparse]
    split
    · rename_i hfp
      simp [hfp]
    · rename_i hfp
      simp [hfp]
  · rename_i hno
    constructor
    · intro h
      cases h
    · rintro ⟨hs, acct, hparse⟩
      exact absurd hparse (hno _ _ _ hs)

theorem parse_number (c : Container) (acct : AccountNumber) (t : UInt32) :
    AccountNumber.fromStringWithIndex (acct.toStringWithIndex t (c.pqAccountFingerprint W)) =
      some (acct, t, c.pqAccountFingerprint W) :=
  (from_toStringWithIndex acct t (pqAccountFingerprint_lt _ _)).1

/-- A rendered account number is the wallet's own. -/
theorem ownIndex_toString (hs : c.pqDepositScheme = .singleKeyIndex) (acct : AccountNumber) (t : UInt32) :
    c.ownIndex W (acct.toStringWithIndex t (c.pqAccountFingerprint W)) = some t :=
  ownIndex_some.mpr ⟨hs, acct, parse_number c acct t⟩

theorem Own.of_resolve {registration : Option AccountNumber} (h : c.pqResolveAddressBucket W registration s = some b) :
    Own W c s b := by
  unfold Container.pqResolveAddressBucket at h
  split at h
  · rename_i hs
    rw [← some.inj h]
    exact .primary hs
  · rename_i hs
    split at h
    · rename_i t ht
      obtain ⟨hscheme, acct, hparse⟩ := ownIndex_some.mp ht
      rw [← some.inj h]
      exact .index acct t hs hscheme hparse
    · rename_i hnone
      obtain ⟨ordinal, hmem, haddr, rfl⟩ := issuedBucket_some h
      have hlt := mem_range.mp hmem
      rw [Container.getAddress, if_neg (Nat.succ_ne_zero ordinal)] at haddr
      dsimp only at haddr
      rw [Nat.add_sub_cancel] at haddr
      split at haddr
      · cases haddr
      · rename_i hissued
        have hissued := UInt32.not_le.mp hissued
        split at haddr
        · cases haddr
        · rename_i acct hscheme
          -- such a string was accepted before the loop
          rw [← some.inj haddr, Container.pqDepositAddress, hscheme] at hnone
          dsimp only at hnone
          rw [ownIndex_toString hscheme] at hnone
          cases hnone
        · rename_i hscheme
          have hfirst : c.getPqFirstDepositIndex = 0 := by
            rw [Container.getPqFirstDepositIndex, hscheme]
            rfl
          have hcount : c.getPqDepositCount = c.pqNextDepositIndex := by
            rw [Container.getPqDepositCount, hfirst]
            split
            · exact UInt32.sub_zero _
            · rename_i hzero
              exact (UInt32.le_zero_iff.mp (UInt32.not_lt.mp hzero)).symm
          have hat : c.getPqDepositIndexAt (UInt32.ofNat ordinal) = UInt32.ofNat ordinal := by
            rw [Container.getPqDepositIndexAt, hfirst, UInt32.zero_add]
          rw [hat] at haddr ⊢
          exact .deposit _ hs hscheme (hcount ▸ hissued) (some.inj haddr).symm

/-- Under the index scheme, the index in the number `s`. -/
def Container.routeIn (c : Container) (s : Bytes) : Option UInt32 :=
  match c.pqDepositScheme with
  | .singleKeyIndex => (AccountNumber.fromStringWithIndex s).map fun r => r.2.1
  | .aggregatedMultikey => none

theorem routeIn_of_address {a : PqAddress} (h : decodePqAddress W.toPrimitives s c.testnet = some a) :
    c.routeIn s = none := by
  unfold Container.routeIn
  split
  · cases hparse : AccountNumber.fromStringWithIndex s with
    | none => rfl
    | some r =>
      rw [decodePqAddress_of_index hparse] at h
      cases h
  · rfl

theorem decode_getPqAddress (c : Container) :
    ∃ a, decodePqAddress W.toPrimitives (c.getPqAddress W) c.testnet = some a ∧
    a.viewPub = c.trackingKeys.viewPub ∧ a.spendPub = c.trackingKeys.spendPub :=
  ⟨_, decode_encodePqAddress _ _, rfl, rfl⟩

theorem decode_pqDepositAddress (hs : c.pqDepositScheme = .aggregatedMultikey) (hseed : c.primarySeedMaster ≠ noSeed)
    (d : UInt32) (registration : AccountNumber) :
    ∃ a, decodePqAddress W.toPrimitives (c.pqDepositAddress W d registration) c.testnet = some a ∧
      a.viewPub = (derivePqWalletKeys W c.primarySeedMaster).viewPub ∧
      a.spendPub = (deriveDepositSpendKeys W c.primarySeedMaster d).1 := by
  rw [Container.pqDepositAddress, hs]
  dsimp only
  rw [if_neg hseed]
  exact ⟨_, decode_encodePqAddress _ _, rfl, rfl⟩

/-- The keys of a wallet that can spend are those of its seed. -/
theorem Coherent.spending (h : Coherent W c) (hseed : c.primarySeedMaster ≠ noSeed) :
    c.trackingKeys = pqTrackingKeys (derivePqWalletKeys W c.primarySeedMaster) := by
  obtain ⟨seed, hkeys, hor⟩ := h.identity
  rcases hor with e | e
  · rw [hkeys, e]
  · exact absurd e hseed

theorem Coherent.spends_of_deposit (h : Coherent W c) (hs : c.pqDepositScheme = .aggregatedMultikey) {d : UInt32}
    (hd : d < c.pqNextDepositIndex) : c.primarySeedMaster ≠ noSeed := by
  intro hseed
  rw [h.watching hseed hs] at hd
  exact UInt32.not_lt_zero hd

/-- An output for the primary key without a route. -/
theorem Routed.of_primary (hspend : so.recipientSpendPub = c.trackingKeys.spendPub) (ht : so.subaddrIndexT = 0) :
    Routed W c so pqPrimaryDeposit := by
  cases hs : c.pqDepositScheme with
  | singleKeyIndex =>
    have h := Routed.index (W := W) hs hspend
    rwa [ht] at h
  | aggregatedMultikey => exact .primary hs hspend

/-- The output is for the recipient. -/
structure PqSendOutput.PaysTo (so : PqSendOutput) (r : ResolvedRecipient) : Prop where
  viewPub : so.recipientViewPub = r.viewPub
  spendPub : so.recipientSpendPub = r.spendPub
  route : so.subaddrIndexT = r.subaddrIndexT

/-- No other keys have the fingerprint of the container's. -/
def Container.NoCollision (W : WalletPrimitives) (c : Container) (r : ResolvedRecipient) : Prop :=
  L2.pqAccountFingerprint W.toPrimitives c.testnet r.spendPub r.viewPub = c.pqAccountFingerprint W →
    r.viewPub = c.trackingKeys.viewPub ∧ r.spendPub = c.trackingKeys.spendPub

/-- Where a payment to an own string goes. -/
theorem Own.payment (hc : Coherent W c) (hown : Own W c s b) {node : Resolver} {r : ResolvedRecipient}
    (hr : resolvePqRecipient W.toPrimitives node c.testnet s = .ok r) (hno : c.NoCollision W r) (hpays : so.PaysTo r) :
    so.recipientViewPub = c.trackingKeys.viewPub ∧
      ∃ b', Routed W c so b' ∧ (b' = b ↔ c.routeIn s ≠ some 0 ∧ c.routeIn s ≠ some 0xFFFFFFFF) := by
  cases hown with
  | primary hs =>
    obtain ⟨a, ha, hview, hspend⟩ := decode_getPqAddress (W := W) c
    rw [← hs] at ha
    rw [resolvePqRecipient_address ha] at hr
    cases hr
    refine ⟨hpays.viewPub.trans hview, _, .of_primary (hpays.spendPub.trans hspend) hpays.route, ?_⟩
    simp [routeIn_of_address ha]
  | index acct _ hs hscheme hparse =>
    obtain ⟨-, -, hfp, hroute⟩ := (resolvePqRecipient_index hparse).mp hr
    obtain ⟨hview, hspend⟩ := hno hfp
    refine ⟨hpays.viewPub.trans hview, _, .index hscheme (hpays.spendPub.trans hspend), ?_⟩
    have hin : c.routeIn s = some b := by
      rw [Container.routeIn, hscheme]
      dsimp only
      rw [hparse, map_some]
    rw [hpays.route, hroute, pqDepositIndexForRoute_eq_iff, hin]
    simp
  | deposit _ hs hscheme hlt haddr =>
    have hspends := hc.spends_of_deposit hscheme hlt
    obtain ⟨a, ha, hview, hspend⟩ := decode_pqDepositAddress (W := W) hscheme hspends b ⟨0, 0⟩
    rw [← haddr] at ha
    rw [resolvePqRecipient_address ha] at hr
    cases hr
    refine ⟨?_, b, .deposit b hscheme hspends hlt (hpays.spendPub.trans hspend) hpays.route, ?_⟩
    · rw [hpays.viewPub, hc.spending hspends]
      exact hview
    · simp [routeIn_of_address ha]

/-- Where change to an own string goes. -/
theorem Own.change (hc : Coherent W c) (hown : Own W c s b) (hspends : c.primarySeedMaster ≠ noSeed) (amount : UInt64) :
    (c.pqChangeTemplate W b).recipientViewPub = c.trackingKeys.viewPub ∧
      ∃ b', Routed W c { c.pqChangeTemplate W b with amount := amount } b' ∧ (b' = b ↔ c.routeIn s ≠ some 0) := by
  have hkeys := hc.spending hspends
  have hview : (c.pqChangeTemplate W b).recipientViewPub = c.trackingKeys.viewPub := by
    rw [hkeys]
    unfold Container.pqChangeTemplate
    split
    · rfl
    · split <;> rfl
  refine ⟨hview, ?_⟩
  -- the primary bucket's template, whichever string names it
  have hprimary : b = pqPrimaryDeposit → Routed W c { c.pqChangeTemplate W b with amount := amount } b := by
    intro hb
    rw [hb, Container.pqChangeTemplate, if_pos rfl]
    exact .of_primary (by rw [hkeys]; rfl) rfl
  cases hown with
  | primary hs =>
    obtain ⟨a, ha, -⟩ := decode_getPqAddress (W := W) c
    rw [← hs] at ha
    refine ⟨_, hprimary rfl, ?_⟩
    simp [routeIn_of_address ha]
  | index acct _ hs hscheme hparse =>
    have hin : c.routeIn s = some b := by
      rw [Container.routeIn, hscheme]
      dsimp only
      rw [hparse, map_some]
    rw [hin]
    by_cases hb : b = pqPrimaryDeposit
    · refine ⟨_, hprimary hb, ?_⟩
      rw [hb]
      decide
    · have htemplate : c.pqChangeTemplate W b =
          ⟨c.trackingKeys.viewPub, c.trackingKeys.spendPub, 0, b.toUInt64, 0⟩ := by
        rw [Container.pqChangeTemplate, if_neg hb, hscheme, hkeys]
        rfl
      rw [htemplate]
      refine ⟨_, .index hscheme rfl, ?_⟩
      rw [pqDepositIndexForRoute_eq_iff]
      simp only [ne_eq, some.injEq, and_iff_left_iff_imp]
      exact fun _ => hb
  | deposit _ hs hscheme hlt haddr =>
    obtain ⟨a, ha, -⟩ := decode_pqDepositAddress (W := W) hscheme hspends b ⟨0, 0⟩
    rw [← haddr] at ha
    have hb : b ≠ pqPrimaryDeposit := by
      intro hb
      have := lt_iff_toNat_lt.mp hlt
      have hmax := c.pqNextDepositIndex.toNat_lt
      rw [hb, show pqPrimaryDeposit.toNat = 0xFFFFFFFF from rfl] at this
      omega
    refine ⟨b, .deposit b hscheme hspends hlt ?_ ?_, by simp [routeIn_of_address ha]⟩
    · rw [Container.pqChangeTemplate, if_neg hb, hscheme]
      rfl
    · rw [Container.pqChangeTemplate, if_neg hb, hscheme]

end

/-! ## Balances -/

/-- `out[depositIndex] += amount` -/
def addTo (depositIndex : UInt32) (amount : UInt64) : List (UInt32 × UInt64) → List (UInt32 × UInt64)
  | [] => [(depositIndex, amount)]
  | x :: out =>
    if x.1 = depositIndex then (x.1, x.2 + amount) :: out else x :: addTo depositIndex amount out

/-- In a bucket that is neither sentinel. -/
def PqWalletOutput.inDeposit (o : PqWalletOutput) : Bool :=
  !o.spent && !(o.depositIndex == pqPrimaryDeposit) && !(o.depositIndex == pqUnattributedDeposit)

/-- mirrors WalletLedger.cpp:490-507 -/
def Ledger.depositBalances (L : Ledger) : List (UInt32 × UInt64) :=
  (L.outputs.entries.filter PqWalletOutput.inDeposit).foldl (fun out o => addTo o.depositIndex o.amount out) []

theorem sum_addTo (d : UInt32) (amount : UInt64) : ∀ out : List (UInt32 × UInt64),
    ((addTo d amount out).map Prod.snd).sum = (out.map Prod.snd).sum + amount
  | [] => by simp [addTo]
  | x :: out => by
    rw [addTo]
    split
    · simp only [map_cons, sum_cons]
      rw [add_right_comm]
    · simp only [map_cons, sum_cons]
      rw [sum_addTo d amount out, add_assoc]

theorem lookup_cons_if (a k : UInt32) (v : UInt64) (out : List (UInt32 × UInt64)) :
    ((a, v) :: out).lookup k = if a = k then some v else out.lookup k := by
  by_cases h : a = k
  · rw [h, lookup_cons_self, if_pos rfl]
  · rw [lookup_cons, show (k == a) = false from beq_false_of_ne (Ne.symm h), if_neg h]

theorem lookup_addTo (d k : UInt32) (amount : UInt64) : ∀ out : List (UInt32 × UInt64),
    ((addTo d amount out).lookup k).getD 0 = (out.lookup k).getD 0 + if d = k then amount else 0
  | [] => by
    rw [addTo, lookup_cons_if]
    by_cases h : d = k <;> simp [h]
  | (a, v) :: out => by
    have ih := lookup_addTo d k amount out
    rw [addTo]
    by_cases ha : a = d
    · rw [if_pos ha, lookup_cons_if, lookup_cons_if, ha]
      by_cases hk : d = k <;> simp [hk]
    · rw [if_neg ha, lookup_cons_if, lookup_cons_if]
      by_cases hk : a = k
      · have hd : ¬ d = k := fun e => ha (hk.trans e.symm)
        simp [hk, hd]
      · rw [if_neg hk, if_neg hk, ih]

theorem sum_addTo_foldl : ∀ (l : List PqWalletOutput) (out : List (UInt32 × UInt64)),
    ((l.foldl (fun out o => addTo o.depositIndex o.amount out) out).map Prod.snd).sum =
      (out.map Prod.snd).sum + (l.map PqWalletOutput.amount).sum
  | [], out => by simp
  | o :: l, out => by
    rw [foldl_cons, sum_addTo_foldl l, sum_addTo, map_cons, sum_cons, add_assoc]

theorem lookup_addTo_foldl (k : UInt32) : ∀ (l : List PqWalletOutput) (out : List (UInt32 × UInt64)),
    ((l.foldl (fun out o => addTo o.depositIndex o.amount out) out).lookup k).getD 0 =
      (out.lookup k).getD 0 + ((l.filter fun o => o.depositIndex == k).map PqWalletOutput.amount).sum
  | [], out => by simp
  | o :: l, out => by
    rw [foldl_cons, lookup_addTo_foldl k l, lookup_addTo]
    by_cases h : o.depositIndex = k
    · simp [h, add_assoc]
    · simp [h]

/-- The unspent outputs, split by a property. -/
theorem sumOf_split (L : Ledger) (p q : PqWalletOutput → Bool) :
    L.sumOf p = (L.sumOf fun o => p o && q o) + L.sumOf fun o => p o && !q o := by
  unfold Ledger.sumOf
  induction L.outputs.entries with
  | nil => rfl
  | cons o l ih =>
    cases hp : p o with
    | false => simpa [hp] using ih
    | true =>
      cases hq : q o with
      | true => simp [hp, hq, ih, add_assoc]
      | false =>
        simp only [hp, hq, filter_cons, Bool.and_false, Bool.not_false, Bool.and_true, if_true,
          Bool.false_eq_true, if_false, map_cons, sum_cons, ih]
        rw [add_left_comm]

/-- Each entry is the balance of its deposit. -/
theorem depositBalances_lookup (L : Ledger) {d : UInt32} (hp : d ≠ pqPrimaryDeposit) (hu : d ≠ pqUnattributedDeposit) :
    (L.depositBalances.lookup d).getD 0 = L.depositBalance d := by
  rw [Ledger.depositBalances, lookup_addTo_foldl, Ledger.depositBalance, if_neg hu, Ledger.sumOf, List.filter_filter]
  simp only [lookup_nil, getD_none, zero_add]
  congr 2
  refine filter_congr fun o _ => ?_
  by_cases h : o.depositIndex = d
  · simp [PqWalletOutput.inDeposit, h, beq_false_of_ne hp, beq_false_of_ne hu]
  · simp [beq_false_of_ne h]

/-- The buckets make up the balance. -/
theorem balance_buckets (L : Ledger) :
    L.depositBalance pqPrimaryDeposit + (L.depositBalances.map Prod.snd).sum + L.unattributedBalance = L.balance := by
  have hsum : (L.depositBalances.map Prod.snd).sum = L.sumOf PqWalletOutput.inDeposit := by
    rw [Ledger.depositBalances, sum_addTo_foldl]
    exact zero_add _
  have hun : L.unattributedBalance =
      L.sumOf fun o => !o.spent && !(o.depositIndex == pqPrimaryDeposit) && (o.depositIndex == pqUnattributedDeposit) := by
    rw [Ledger.unattributedBalance, Ledger.sumOf, Ledger.sumOf]
    congr 2
    refine filter_congr fun o _ => ?_
    by_cases h : o.depositIndex = pqUnattributedDeposit
    · rw [h]
      simp [show (pqUnattributedDeposit == pqPrimaryDeposit) = false from rfl]
    · simp [beq_false_of_ne h]
  have hprimary := sumOf_split L (fun o => !o.spent) fun o => o.depositIndex == pqPrimaryDeposit
  have hrest := sumOf_split L (fun o => !o.spent && !(o.depositIndex == pqPrimaryDeposit)) fun o =>
    o.depositIndex == pqUnattributedDeposit
  rw [hsum, hun, Ledger.depositBalance, if_neg (by decide), Ledger.balance, hprimary, hrest, add_assoc,
    add_comm (L.sumOf PqWalletOutput.inDeposit)]
  rfl

/-! ## Attribution -/

section
variable {W : WalletPrimitives} {V : TxView} {c : Container}

/-- The scan can credit the bucket as a deposit. -/
def Container.Attributable (c : Container) (d : UInt32) : Prop :=
  d ≠ pqPrimaryDeposit ∧ d ≠ pqUnattributedDeposit ∧ (c.pqDepositScheme = .singleKeyIndex → d ≠ 0)

theorem Reserved.attributable_iff {c' : Container} {reserved : UInt32} (h : Reserved W c c' reserved) :
    c.Attributable reserved ↔ c.pqNextDepositIndex.toUInt64 ≤ pqMaxDepositRoute := by
  have hnat : reserved.toNat = max c.pqNextDepositIndex.toNat c.getPqFirstDepositIndex.toNat := by
    rw [h.index, toNat_max]
  have hfirst := getPqFirstDepositIndex_le c
  have hroom : reserved.toNat ≠ 0xFFFFFFFF := fun e => h.room (UInt32.toNat_inj.mp e)
  have hlt := reserved.toNat_lt
  have hle : c.pqNextDepositIndex.toUInt64 ≤ pqMaxDepositRoute ↔ c.pqNextDepositIndex.toNat ≤ 0xFFFFFFFD := by
    rw [UInt64.le_iff_toNat_le, toNat_toUInt64]
    rfl
  rw [hle]
  constructor
  · rintro ⟨-, hun, -⟩
    have hun : reserved.toNat ≠ 0xFFFFFFFE := fun e => hun (UInt32.toNat_inj.mp e)
    omega
  · intro hcursor
    refine ⟨h.room, fun e => ?_, fun hs e => ?_⟩
    · rw [e, show pqUnattributedDeposit.toNat = 0xFFFFFFFE from rfl] at hnat
      omega
    · have hone : c.getPqFirstDepositIndex.toNat = 1 := by rw [Container.getPqFirstDepositIndex, if_pos hs]; rfl
      rw [e, hone, show (0 : UInt32).toNat = 0 from rfl] at hnat
      omega

/-- Every output of a built transfer can be delivered. -/
theorem Built.carries {inputs : List PqSpendInput} {outputs : List PqSendOutput} {inputAuth : List PqInputAuth}
    {extra : Bytes} {signing : PqSigningContext} {txType : UInt8} {coins : Nat → OutputCoins}
    {r : PqTransactionBuildResult} {fee : UInt64} {u : UnsignedTx}
    (h : Built W inputs outputs inputAuth extra signing txType coins r fee u) {k : Nat} {so : PqSendOutput}
    (hk : outputs[k]? = some so) (txid : Hash) (height : UInt32) (timestamp : UInt64) :
    (⟨r.tx.toTransactionPrefix, txid, height, timestamp, k, coins k⟩ : Delivery).Carries W so := by
  obtain ⟨out, rho, hout, -, ⟨b, hb, hbuilt, -⟩⟩ := h.tx_outputs k so hk
  refine ⟨?_, ?_, b, hb, hbuilt ▸ hout⟩
  · show ¬ r.tx.version < transactionVersion1
    rw [h.tx_version]
    exact UInt8.lt_irrefl _
  · show r.tx.outputs.length < 2 ^ 32
    have := h.outputs_le
    rw [h.tx_outputs_length]
    unfold maxPqOutputsPerTx at this
    omega

/-- Whatever the container has been through: a payment to one of its strings, and change
to it, are recorded in the bucket the string resolves to unless the string is a number
with a reserved route; each index is issued once, and is a deposit's unless the cursor has
passed the last one; and the buckets make up the balance. -/
theorem deposit_attribution_iff (hW : W.Correct) {x : Issuing}
    (h : ((containerMachine W V).lts Machine.anyEvent).Reachable x) :
    (∀ registration s b, x.container.pqResolveAddressBucket W registration s = some b →
      (∀ (node : Resolver) (r : ResolvedRecipient) (so : PqSendOutput) (p : Delivery),
        resolvePqRecipient W.toPrimitives node x.container.testnet s = .ok r → x.container.NoCollision W r →
        so.PaysTo r → p.Arrives W x.container so → (p.recordedIn W x.container.ledger so.recipientSpendPub = some b ↔
            x.container.routeIn s ≠ some 0 ∧ x.container.routeIn s ≠ some 0xFFFFFFFF)) ∧
      (∀ (so : PqSendOutput) (p : Delivery), x.container.primarySeedMaster ≠ noSeed →
        so = { x.container.pqChangeTemplate W b with amount := so.amount } → p.Arrives W x.container so →
          (p.recordedIn W x.container.ledger so.recipientSpendPub = some b ↔ x.container.routeIn s ≠ some 0))) ∧
    x.issued.Nodup ∧ (∀ d, (x.container.reservePqDepositIndex W).2 = .ok d → d ∉ x.issued ∧
      (x.container.Attributable d ↔ x.container.pqNextDepositIndex.toUInt64 ≤ pqMaxDepositRoute)) ∧
    (∀ d, d ≠ pqPrimaryDeposit → d ≠ pqUnattributedDeposit →
      (x.container.ledger.depositBalances.lookup d).getD 0 = x.container.ledger.depositBalance d) ∧
    x.container.ledger.depositBalance pqPrimaryDeposit + (x.container.ledger.depositBalances.map Prod.snd).sum +
      x.container.ledger.unattributedBalance = x.container.ledger.balance := by
  have hx := issuingInv_reachable h
  refine ⟨fun registration s b hs => ⟨fun node r so p hr hno hpays hp => ?_, fun so p hspends hso hp => ?_⟩,
    hx.nodup, fun d hd => ⟨fun hmem => ?_, (Reserved.of_ok hd).attributable_iff⟩,
    fun d => depositBalances_lookup _, balance_buckets _⟩
  · obtain ⟨hview, b', hroute, hiff⟩ := (Own.of_resolve hs).payment hx.coherent hr hno hpays
    rw [hroute.recorded hW hx.coherent hview hp, some.injEq, hiff]
  · obtain ⟨hview, b', hroute, hiff⟩ := (Own.of_resolve hs).change hx.coherent hspends so.amount
    rw [← hso] at hroute
    have hview : so.recipientViewPub = x.container.trackingKeys.viewPub := by
      rw [hso]
      exact hview
    rw [hroute.recorded hW hx.coherent hview hp, some.injEq, hiff]
  · have hlt := lt_iff_toNat_lt.mp (hx.below d hmem)
    have hle := le_iff_toNat_le.mp (Reserved.of_ok hd).cursor_le
    omega

/-! ### A number of an index wallet -/

/-- The rendered number resolves to its index. -/
theorem resolve_number (hs : c.pqDepositScheme = .singleKeyIndex) (registration : Option AccountNumber)
    (acct : AccountNumber) (t : UInt32) :
    c.pqResolveAddressBucket W registration (acct.toStringWithIndex t (c.pqAccountFingerprint W)) = some t := by
  have hne : acct.toStringWithIndex t (c.pqAccountFingerprint W) ≠ c.getPqAddress W := by
    intro e
    obtain ⟨a, ha, -⟩ := decode_getPqAddress (W := W) c
    rw [← e, decodePqAddress_of_index (parse_number c acct t)] at ha
    cases ha
  rw [Container.pqResolveAddressBucket, if_neg hne, ownIndex_toString hs]

/-- What is shown for a bucket resolves to it, but for the sentinel. -/
theorem resolve_pqBucketAddress (hs : c.pqDepositScheme = .singleKeyIndex) (acct : AccountNumber) (b : UInt32) :
    c.pqResolveAddressBucket W (some acct) (c.pqBucketAddress W (some acct) b) = some b ↔ b ≠ pqUnattributedDeposit := by
  unfold Container.pqBucketAddress
  split
  · rename_i hb
    rw [Container.pqResolveAddressBucket, if_pos rfl, some.injEq]
    rcases hb with rfl | rfl <;> decide
  · rename_i hb
    obtain ⟨-, hun⟩ := not_or.mp hb
    have haddr : c.pqDepositAddress W b acct = acct.toStringWithIndex b (c.pqAccountFingerprint W) := by
      rw [Container.pqDepositAddress, hs]
    obtain ⟨d, rest, hcons, -⟩ := fromStringWithIndex_digit (parse_number (W := W) c acct b)
    rw [hs]
    dsimp only [getD_some]
    have hne : c.pqDepositAddress W b acct ≠ [] := by
      rw [haddr, hcons]
      exact cons_ne_nil d rest
    rw [if_neg hne, haddr, resolve_number hs]
    simp [hun]

/-- A transaction with this output alone. -/
def soleDelivery (W : WalletPrimitives) (so : PqSendOutput) (coins : OutputCoins) : Delivery :=
  let kem := W.kemEncaps so.recipientViewPub coins.encaps
  let b := sealPqOutput W kem.1 kem.2 so.recipientSpendPub nullHash 0 so.amount coins.rho so.subaddrIndexT
  { tx :=
      { version := transactionVersion1
        txType := txPqV2
        unlockHeight := 0
        inputs := []
        outputs := [⟨so.amount, so.unlockHeight, .pq ⟨b.kemCt.val, b.encPayload, b.spendCommit⟩⟩]
        extra := [] }
    txid := nullHash
    height := 5
    timestamp := 0
    position := 0
    coins := coins }

/-- It arrives at a wallet that has no outputs yet. -/
theorem soleDelivery_arrives (hW : W.Correct) (hempty : c.ledger.outputs = .empty) (so : PqSendOutput)
    (coins : OutputCoins)
    (hcommit : c.pqDepositScheme = .aggregatedMultikey → Set.InjOn (fun d => spendCommit W.toPrimitives
      (c.spendKey W d) coins.rho) { d | ∀ k ∈ d, k < c.pqNextDepositIndex }) :
    (soleDelivery W so coins).Arrives W c so where
  carries :=
    { version := by show ¬ transactionVersion1 < transactionVersion1; exact UInt8.lt_irrefl _
      length := by show 1 < 2 ^ 32; decide
      built := ⟨_, buildPqOutput_eq hW _ _ _ _ _ _ _, rfl⟩ }
  new :=
    { unseen := by rw [hempty]; rfl
      distinct := by
        show (List.map _ (List.filterMap _ [_] ++ [])).Nodup
        rw [append_nil, filterMap_cons]
        split <;> simp }
  clear := fun hagg => ⟨hcommit hagg, fun hmode => by cases hmode⟩

end

/-- An index wallet of the small seed. -/
def toyIndexWallet : Issuing :=
  ⟨((Container.fresh toyWallet true (pqTrackingKeys toyKeys) toySeed).setPqDepositScheme toyWallet .singleKeyIndex).1, []⟩

theorem resolve_pqBucketAddress_seven : toyIndexWallet.container.pqResolveAddressBucket toyWallet (some ⟨5, 0⟩)
    (toyIndexWallet.container.pqBucketAddress toyWallet (some ⟨5, 0⟩) 7) = some 7 :=
  (resolve_pqBucketAddress rfl ⟨5, 0⟩ 7).mpr (by decide)

def noTransactions : TxView := ⟨fun _ => none, fun h => by cases h⟩

theorem toyIndexWallet_reachable :
    ((containerMachine toyWallet noTransactions).lts Machine.anyEvent).Reachable toyIndexWallet :=
  .step (.init ⟨true, toySeed, toySeed, .inl rfl, rfl⟩) ⟨.setPqDepositScheme .singleKeyIndex, trivial, rfl⟩

/-- A node that answers the wallet's own keys. -/
def toyResolver : Resolver := ⟨true, fun _ => some (some toyKeys.viewPub, some toyKeys.spendPub)⟩

/-- The wallet's number with index `t`, registered in block 5. -/
def toyNumber (t : UInt32) : Bytes :=
  AccountNumber.toStringWithIndex ⟨5, 0⟩ t (toyIndexWallet.container.pqAccountFingerprint toyWallet)

def toyPayment (t : UInt32) : PqSendOutput := ⟨toyKeys.viewPub, toyKeys.spendPub, 100, t.toUInt64, 0⟩

theorem toyNumber_recipient (t : UInt32) :
    resolvePqRecipient toyWallet.toPrimitives toyResolver toyIndexWallet.container.testnet (toyNumber t) =
      .ok ⟨toyKeys.viewPub, toyKeys.spendPub, t.toUInt64⟩ :=
  (resolvePqRecipient_index (parse_number toyIndexWallet.container ⟨5, 0⟩ t)).mpr ⟨rfl, rfl, rfl, rfl⟩

theorem toyPayment_arrives (so : PqSendOutput) :
    (soleDelivery toyWallet so (toyCoins 0 0)).Arrives toyWallet toyIndexWallet.container so :=
  soleDelivery_arrives toyWallet_correct rfl so (toyCoins 0 0) fun hagg => by cases hagg

/-- The same seed with a key for each deposit, one of them issued. -/
def toyDepositWallet : Issuing :=
  ⟨((Container.fresh toyWallet true (pqTrackingKeys toyKeys) toySeed).reservePqDepositIndex toyWallet).1, [0]⟩

theorem toyDepositWallet_reachable :
    ((containerMachine toyWallet noTransactions).lts Machine.anyEvent).Reachable toyDepositWallet :=
  .step (.init ⟨true, toySeed, toySeed, .inl rfl, rfl⟩) ⟨.reservePqDepositIndex, trivial, rfl⟩

/-- The two commitments of the wallet differ. -/
theorem toyDepositWallet_commitments :
    Set.InjOn (fun d => spendCommit toyWallet.toPrimitives (toyDepositWallet.container.spendKey toyWallet d)
      (toyCoins 0 0).rho) { d | ∀ k ∈ d, k < toyDepositWallet.container.pqNextDepositIndex } := by
  have hne : spendCommit toyWallet.toPrimitives toyKeys.spendPub (toyCoins 0 0).rho ≠
      spendCommit toyWallet.toPrimitives toyDepositKey (toyCoins 0 0).rho := by decide +kernel
  have hcases : ∀ d ∈ { d : Option UInt32 | ∀ k ∈ d, k < toyDepositWallet.container.pqNextDepositIndex },
      d = none ∨ d = some 0 := by
    intro d hd
    cases d with
    | none => exact .inl rfl
    | some k =>
      have hlt := lt_iff_toNat_lt.mp (hd k rfl)
      rw [show toyDepositWallet.container.pqNextDepositIndex.toNat = 1 from rfl] at hlt
      exact .inr (congrArg some (UInt32.toNat_inj.mp (by rw [show (0 : UInt32).toNat = 0 from rfl]; omega)))
  intro d hd d' hd' e
  rcases hcases d hd with rfl | rfl <;> rcases hcases d' hd' with rfl | rfl
  · rfl
  · exact absurd e hne
  · exact absurd e.symm hne
  · rfl

theorem toyDepositKey_fingerprint : L2.pqAccountFingerprint toyWallet.toPrimitives true toyDepositKey toyKeys.viewPub ≠
    L2.pqAccountFingerprint toyWallet.toPrimitives true toyKeys.spendPub toyKeys.viewPub := by decide +kernel

theorem toyDepositAddress_resolves : toyDepositWallet.container.pqResolveAddressBucket toyWallet none
    (toyDepositWallet.container.pqDepositAddress toyWallet 0 ⟨0, 0⟩) = some 0 := by
  have hs : toyDepositWallet.container.pqDepositScheme = .aggregatedMultikey := rfl
  have hspends : toyDepositWallet.container.primarySeedMaster ≠ noSeed := by decide
  -- the two addresses decode to different keys
  have hne : toyDepositWallet.container.pqDepositAddress toyWallet 0 ⟨0, 0⟩ ≠
      toyDepositWallet.container.getPqAddress toyWallet := by
    intro e
    obtain ⟨a, ha, -, hspend⟩ := decode_pqDepositAddress (W := toyWallet) hs hspends 0 ⟨0, 0⟩
    obtain ⟨a', ha', -, hspend'⟩ := decode_getPqAddress (W := toyWallet) toyDepositWallet.container
    rw [e, ha', some.injEq] at ha
    have hkey : toyKeys.spendPub = toyDepositKey := by
      rw [ha, hspend] at hspend'
      exact hspend'.symm
    exact absurd hkey (by decide +kernel)
  have hrange : List.range toyDepositWallet.container.getPqDepositCount.toNat = [0] := rfl
  have haddr : toyDepositWallet.container.getAddress toyWallet none (0 + 1) =
      some (toyDepositWallet.container.pqDepositAddress toyWallet 0 ⟨0, 0⟩) := rfl
  rw [Container.pqResolveAddressBucket, if_neg hne, show Container.ownIndex _ _ _ = none from rfl, hrange]
  dsimp only
  rw [Container.issuedBucket, haddr]
  exact if_pos rfl

/-- A payment to the number with index 7, change to it, and the first index issued; and a
payment to the first deposit of a wallet with a key for each. -/
theorem deposit_attribution_seven :
    ((containerMachine toyWallet noTransactions).lts Machine.anyEvent).Reachable toyIndexWallet ∧
    toyIndexWallet.container.pqResolveAddressBucket toyWallet none (toyNumber 7) = some 7 ∧
    (soleDelivery toyWallet (toyPayment 7) (toyCoins 0 0)).recordedIn toyWallet toyIndexWallet.container.ledger
      toyKeys.spendPub = some 7 ∧
    (soleDelivery toyWallet (toyIndexWallet.container.pqChangeTemplate toyWallet 7) (toyCoins 0 0)).recordedIn toyWallet
      toyIndexWallet.container.ledger toyKeys.spendPub = some 7 ∧ toyIndexWallet.container.Attributable 1 ∧
    ((containerMachine toyWallet noTransactions).lts Machine.anyEvent).Reachable toyDepositWallet ∧
    (soleDelivery toyWallet ⟨toyKeys.viewPub, toyDepositKey, 100, 0, 0⟩ (toyCoins 0 0)).recordedIn toyWallet
      toyDepositWallet.container.ledger toyDepositKey = some 0 := by
  have hs : toyIndexWallet.container.pqDepositScheme = .singleKeyIndex := rfl
  have hresolve : toyIndexWallet.container.pqResolveAddressBucket toyWallet none (toyNumber 7) = some 7 :=
    resolve_number hs none ⟨5, 0⟩ 7
  have hroute : toyIndexWallet.container.routeIn (toyNumber 7) = some 7 := by
    rw [Container.routeIn, hs]
    dsimp only
    rw [toyNumber, parse_number, map_some]
  obtain ⟨hpay, -, hreserve, -⟩ := deposit_attribution_iff toyWallet_correct toyIndexWallet_reachable
  obtain ⟨hpayment, hchange⟩ := hpay none _ 7 hresolve
  refine ⟨toyIndexWallet_reachable, hresolve, ?_, ?_, ?_, toyDepositWallet_reachable, ?_⟩
  · refine (hpayment toyResolver _ (toyPayment 7) _ (toyNumber_recipient 7) (fun _ => ⟨rfl, rfl⟩) ⟨rfl, rfl, rfl⟩
      (toyPayment_arrives _)).mpr ?_
    rw [hroute]
    decide
  · refine (hchange _ _ (by decide) rfl (toyPayment_arrives _)).mpr ?_
    rw [hroute]
    decide
  · exact (hreserve 1 rfl).2.mpr (by decide)
  · obtain ⟨a, ha, hview, hspend⟩ := decode_pqDepositAddress (W := toyWallet) (c := toyDepositWallet.container) rfl
      (by decide) 0 ⟨0, 0⟩
    have hdeposit := (deposit_attribution_iff toyWallet_correct toyDepositWallet_reachable).1 none _ 0
      toyDepositAddress_resolves
    refine (hdeposit.1 toyResolver _ ⟨toyKeys.viewPub, toyDepositKey, 100, 0, 0⟩ _ (resolvePqRecipient_address ha)
      (fun hfp => ?_) ⟨hview.symm, hspend.symm, rfl⟩
      (soleDelivery_arrives toyWallet_correct rfl _ (toyCoins 0 0) fun _ => toyDepositWallet_commitments)).mpr ?_
    · rw [hview, hspend] at hfp
      exact absurd hfp toyDepositKey_fingerprint
    · rw [routeIn_of_address ha]
      decide

/-- The number with index 0 resolves to bucket 0; a payment to it is recorded in the
primary bucket. -/
theorem index_zero_misattributed :
    ((containerMachine toyWallet noTransactions).lts Machine.anyEvent).Reachable toyIndexWallet ∧
    toyIndexWallet.container.pqResolveAddressBucket toyWallet none (toyNumber 0) = some 0 ∧
    ∃ r, resolvePqRecipient toyWallet.toPrimitives toyResolver toyIndexWallet.container.testnet (toyNumber 0) = .ok r ∧
      toyIndexWallet.container.NoCollision toyWallet r ∧ (toyPayment 0).PaysTo r ∧
      (soleDelivery toyWallet (toyPayment 0) (toyCoins 0 0)).Arrives toyWallet toyIndexWallet.container (toyPayment 0) ∧
      (soleDelivery toyWallet (toyPayment 0) (toyCoins 0 0)).recordedIn toyWallet toyIndexWallet.container.ledger
        (toyPayment 0).recipientSpendPub = some pqPrimaryDeposit ∧ pqPrimaryDeposit ≠ 0 := by
  have hs : toyIndexWallet.container.pqDepositScheme = .singleKeyIndex := rfl
  have harrives := toyPayment_arrives (toyPayment 0)
  have hcoherent := (issuingInv_reachable toyIndexWallet_reachable).coherent
  have hroute : Routed toyWallet toyIndexWallet.container (toyPayment 0) pqPrimaryDeposit := .of_primary rfl rfl
  exact ⟨toyIndexWallet_reachable, resolve_number hs none ⟨5, 0⟩ 0, _, toyNumber_recipient 0, fun _ => ⟨rfl, rfl⟩,
    ⟨rfl, rfl, rfl⟩, harrives, hroute.recorded toyWallet_correct hcoherent rfl harrives, by decide⟩

end Discrete.L6
