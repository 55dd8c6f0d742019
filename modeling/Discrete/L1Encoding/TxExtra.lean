import Mathlib.Algebra.Order.BigOperators.Group.List
import Discrete.L1Encoding.TxWire

/-!
# Transaction extra (`TransactionExtra.cpp`)

`tx.extra` is a sequence of tagged fields. The parser throws on a short read and
returns `false` on bad padding; a byte that is no known tag is skipped alone.
On failure the fields read so far stay in the output vector, which only
`getMergeMiningTagFromExtra` looks at; every other getter wants the whole extra
to parse and takes the first field of its type.

`parse_payload_le`: the payloads of the parsed fields fit in the extra, so a size
limit on the extra limits which fields can stand in it together.
-/
namespace Discrete.L1
open List Option Codec

def txExtraPaddingMaxCount : Nat := 255

def txExtraTagPadding : UInt8 := 0x00
def txExtraTagPubkey : UInt8 := 0x01
def txExtraNonce : UInt8 := 0x02
def txExtraMergeMiningTag : UInt8 := 0x03
def txExtraTagAccountRegistration : UInt8 := 0x04
def txExtraTagPqAccountRegistration : UInt8 := 0x05
def txExtraTagPow : UInt8 := 0x06
def txExtraTagPqMinerSpendPub : UInt8 := 0x07
def txExtraNoncePaymentId : UInt8 := 0x00

structure ExtraMergeMiningTag where
  depth : UInt64
  merkleRoot : Hash
  deriving DecidableEq

structure ExtraAccountRegistration where
  spendPublicKey : Blob 32
  viewPublicKey : Blob 32
  deriving DecidableEq

structure ExtraPqAccountRegistration where
  viewPub : Blob pqViewPubSize
  spendPub : Blob pqAuthPubSize
  deriving DecidableEq

structure ExtraPow where
  refBlockHash : Hash
  nonce : UInt64
  deriving DecidableEq

inductive ExtraField where
  | padding (size : Nat)
  | publicKey (k : Blob 32)
  | nonce (b : Bytes)
  | mergeMiningTag (t : ExtraMergeMiningTag)
  | accountRegistration (r : ExtraAccountRegistration)
  | pqAccountRegistration (r : ExtraPqAccountRegistration)
  | pow (p : ExtraPow)
  | pqMinerSpendPub (spendPub : Blob pqAuthPubSize)
  deriving DecidableEq

/-! ## Parser -/

/-- The tag is a string on the wire; bytes of it behind the root are ignored.
mirrors CryptoNoteSerialization.cpp:470-492 (INPUT) -/
def readMergeMiningTag : Reader ExtraMergeMiningTag := fun s => do
  let (field, s) ← readBinaryString s
  let (depth, field) ← readVarint64 field
  let (merkleRoot, _) ← readBlob 32 field
  pure (⟨depth, merkleRoot⟩, s)

def readNonce : Reader Bytes := fun s => do
  let (size, s) ← readByte s
  readExact size.toNat s

def readAccountRegistration : Reader ExtraAccountRegistration := fun s => do
  let (spendPublicKey, s) ← readBlob 32 s
  let (viewPublicKey, s) ← readBlob 32 s
  pure (⟨spendPublicKey, viewPublicKey⟩, s)

def readPqAccountRegistration : Reader ExtraPqAccountRegistration := fun s => do
  let (viewPub, s) ← readBlob pqViewPubSize s
  let (spendPub, s) ← readBlob pqAuthPubSize s
  pure (⟨viewPub, spendPub⟩, s)

def readPow : Reader ExtraPow := fun s => do
  let (refBlockHash, s) ← readBlob 32 s
  let (le, s) ← readExact 8 s
  pure (⟨refBlockHash, UInt64.ofNat (leValue le)⟩, s)

/-- Padding takes the rest of the extra: at most 255 zero bytes, the tag included. -/
def readPadding : Reader Nat := fun s =>
  if s.length < txExtraPaddingMaxCount ∧ s.all (· = 0) then some (1 + s.length, []) else none

/-- The body of the parser's `switch`, after the tag byte; the field is `none`
for a tag without a case.
mirrors TransactionExtra.cpp:52-127 -/
def readField (tag : UInt8) (s : Bytes) : Option (Option ExtraField × Bytes) :=
  if tag = txExtraTagPadding then (readPadding s).map fun x => (some (.padding x.1), x.2)
  else if tag = txExtraTagPubkey then (readBlob 32 s).map fun x => (some (.publicKey x.1), x.2)
  else if tag = txExtraNonce then (readNonce s).map fun x => (some (.nonce x.1), x.2)
  else if tag = txExtraMergeMiningTag then
    (readMergeMiningTag s).map fun x => (some (.mergeMiningTag x.1), x.2)
  else if tag = txExtraTagAccountRegistration then
    (readAccountRegistration s).map fun x => (some (.accountRegistration x.1), x.2)
  else if tag = txExtraTagPqAccountRegistration then
    (readPqAccountRegistration s).map fun x => (some (.pqAccountRegistration x.1), x.2)
  else if tag = txExtraTagPow then (readPow s).map fun x => (some (.pow x.1), x.2)
  else if tag = txExtraTagPqMinerSpendPub then
    (readBlob pqAuthPubSize s).map fun x => (some (.pqMinerSpendPub x.1), x.2)
  else some (none, s)

/-- The parser's `while (!iss.endOfStream())`: the fields pushed, and whether it
ran to the end. Every turn takes the tag byte, so `fuel` is the extra's length. -/
def parseFields : (fuel : Nat) → Bytes → List ExtraField × Bool
  | _, [] => ([], true)
  | 0, _ :: _ => ([], false)
  | fuel + 1, tag :: s =>
    match readField tag s with
    | none => ([], false)
    | some (f, s) => (f.toList ++ (parseFields fuel s).1, (parseFields fuel s).2)

/-- mirrors TransactionExtra.cpp:37-133 -/
def parseTransactionExtra (extra : Bytes) : Option (List ExtraField) :=
  if (parseFields extra.length extra).2 then some (parseFields extra.length extra).1 else none

/-! ## Getters -/

def ExtraField.nonce? : ExtraField → Option Bytes
  | .nonce b => some b
  | _ => none

def ExtraField.mergeMiningTag? : ExtraField → Option ExtraMergeMiningTag
  | .mergeMiningTag t => some t
  | _ => none

def ExtraField.accountRegistration? : ExtraField → Option ExtraAccountRegistration
  | .accountRegistration r => some r
  | _ => none

def ExtraField.pqAccountRegistration? : ExtraField → Option ExtraPqAccountRegistration
  | .pqAccountRegistration r => some r
  | _ => none

def ExtraField.pow? : ExtraField → Option ExtraPow
  | .pow p => some p
  | _ => none

def ExtraField.pqMinerSpendPub? : ExtraField → Option (Blob pqAuthPubSize)
  | .pqMinerSpendPub k => some k
  | _ => none

/-- The first field of one type, of an extra that parses. -/
def fieldFromExtra {α : Type} (get : ExtraField → Option α) (extra : Bytes) : Option α :=
  (parseTransactionExtra extra).bind fun fields => fields.findSome? get

/-- The parse result is not looked at.
mirrors TransactionExtra.cpp:241-246 -/
def getMergeMiningTagFromExtra (extra : Bytes) : Option ExtraMergeMiningTag :=
  (parseFields extra.length extra).1.findSome? ExtraField.mergeMiningTag?

/-- mirrors TransactionExtra.cpp:255-262 -/
def getPaymentIdFromTransactionExtraNonce (extraNonce : Bytes) : Option Hash :=
  match extraNonce with
  | [] => none
  | tag :: rest =>
    if h : rest.length = 32 then if tag = txExtraNoncePaymentId then some ⟨rest, h⟩ else none
    else none

/-- mirrors TransactionExtra.cpp:285-301 -/
def getPaymentIdFromTxExtra (extra : Bytes) : Option Hash :=
  (fieldFromExtra ExtraField.nonce? extra).bind getPaymentIdFromTransactionExtraNonce

/-- mirrors TransactionExtra.cpp:312-318 -/
def getAccountRegistrationFromExtra (extra : Bytes) : Option ExtraAccountRegistration :=
  fieldFromExtra ExtraField.accountRegistration? extra

/-- mirrors TransactionExtra.cpp:320-355 -/
def isWellFormedAccountRegistration (extra : Bytes) : Bool :=
  match parseTransactionExtra extra with
  | none => false
  | some fields =>
    match fields.filterMap ExtraField.accountRegistration? with
    | [reg] =>
      (fields.filterMap ExtraField.nonce?).isEmpty &&
        decide (reg.spendPublicKey ≠ nullHash ∧ reg.viewPublicKey ≠ nullHash)
    | _ => false

/-- mirrors TransactionExtra.cpp:368-374 -/
def getPqAccountRegistrationFromExtra (extra : Bytes) : Option ExtraPqAccountRegistration :=
  fieldFromExtra ExtraField.pqAccountRegistration? extra

/-- mirrors TransactionExtra.cpp:410-416 -/
def getPowTagFromExtra (extra : Bytes) : Option ExtraPow :=
  fieldFromExtra ExtraField.pow? extra

/-- mirrors TransactionExtra.cpp:418-430 -/
def isPowTagLastField (extra : Bytes) : Bool :=
  match parseTransactionExtra extra with
  | none => false
  | some fields =>
    decide ((fields.filterMap ExtraField.pow?).length = 1) &&
      ((fields.getLast?.bind ExtraField.pow?).isSome)

/-- mirrors TransactionExtra.cpp:432-448 -/
def isCanonicalFreeRegExtra (extra : Bytes) : Bool :=
  decide (extra.length = 1 + (pqViewPubSize + pqAuthPubSize) + 1 + (32 + 8)) &&
    decide (extra[0]? = some txExtraTagPqAccountRegistration) &&
    decide (extra[1 + (pqViewPubSize + pqAuthPubSize)]? = some txExtraTagPow)

/-- mirrors TransactionExtra.cpp:457-469 -/
def getPqMinerSpendPubFromExtra (extra : Bytes) : Option (Blob pqAuthPubSize) :=
  fieldFromExtra ExtraField.pqMinerSpendPub? extra

/-! ## How much of the extra a field takes -/

/-- Bytes of the extra a field takes at least, its tag not counted. -/
def ExtraField.payload : ExtraField → Nat
  | .padding _ => 0
  | .publicKey _ => 32
  | .nonce b => 1 + b.length
  | .mergeMiningTag _ => 0
  | .accountRegistration _ => 64
  | .pqAccountRegistration _ => pqViewPubSize + pqAuthPubSize
  | .pow _ => 40
  | .pqMinerSpendPub _ => pqAuthPubSize

theorem readBlob_length {n : Nat} {s rest : Bytes} {b : Blob n} (h : readBlob n s = some (b, rest)) :
    rest.length + n = s.length := by
  have := congrArg List.length (readBlob_canonical n h)
  rw [length_append, b.2] at this
  omega

theorem readExact_length {n : Nat} {s rest b : Bytes} (h : readExact n s = some (b, rest)) :
    rest.length + n = s.length := by
  obtain ⟨rfl, hl⟩ := readExact_eq_some.mp h
  rw [length_append]
  omega

theorem readNonce_length {s rest b : Bytes} (h : readNonce s = some (b, rest)) :
    rest.length + (1 + b.length) = s.length := by
  simp only [readNonce, bind_eq_bind, bind_eq_some_iff, Prod.exists] at h
  obtain ⟨size, s', hs, h⟩ := h
  obtain rfl := readByte_eq_some.mp hs
  obtain ⟨rfl, -⟩ := readExact_eq_some.mp h
  simp only [length_cons, length_append]
  omega

theorem readMergeMiningTag_length {s rest : Bytes} {t : ExtraMergeMiningTag}
    (h : readMergeMiningTag s = some (t, rest)) : rest.length ≤ s.length := by
  simp only [readMergeMiningTag, bind_eq_bind, bind_eq_some_iff, Prod.exists,
    Option.pure_def, some.injEq, Prod.mk.injEq] at h
  obtain ⟨field, s', hs, _, _, -, _, _, -, -, rfl⟩ := h
  rw [readBinaryString_canonical hs, length_append]
  omega

theorem readField_payload {tag : UInt8} {s rest : Bytes} {f : Option ExtraField} (h : readField tag s = some (f, rest))
    : rest.length + (f.toList.map ExtraField.payload).sum ≤ s.length := by
  unfold readField at h
  split_ifs at h
  all_goals
    first
    | simp only [map_eq_some_iff, Prod.exists, Prod.mk.injEq] at h
      obtain ⟨v, s', h, rfl, rfl⟩ := h
      simp only [toList_some, map_cons, map_nil, sum_cons, sum_nil, ExtraField.payload, Nat.add_zero]
    | skip
  · unfold readPadding at h
    split_ifs at h
    simp only [some.injEq, Prod.mk.injEq] at h
    simp [← h.2]
  · exact (readBlob_length h).le
  · exact (readNonce_length h).le
  · exact readMergeMiningTag_length h
  · simp only [readAccountRegistration, bind_eq_bind, bind_eq_some_iff, Prod.exists,
      Option.pure_def, some.injEq, Prod.mk.injEq] at h
    obtain ⟨_, _, h1, _, _, h2, -, rfl⟩ := h
    have := readBlob_length h1
    have := readBlob_length h2
    omega
  · simp only [readPqAccountRegistration, bind_eq_bind, bind_eq_some_iff, Prod.exists,
      Option.pure_def, some.injEq, Prod.mk.injEq] at h
    obtain ⟨_, _, h1, _, _, h2, -, rfl⟩ := h
    have := readBlob_length h1
    have := readBlob_length h2
    omega
  · simp only [readPow, bind_eq_bind, bind_eq_some_iff, Prod.exists,
      Option.pure_def, some.injEq, Prod.mk.injEq] at h
    obtain ⟨_, _, h1, _, _, h2, -, rfl⟩ := h
    have := readBlob_length h1
    have := readExact_length h2
    omega
  · exact (readBlob_length h).le
  · simp only [some.injEq, Prod.mk.injEq] at h
    simp [← h.1, ← h.2]

theorem parseFields_payload : ∀ (fuel : Nat) (s : Bytes), ((parseFields fuel s).1.map ExtraField.payload).sum ≤ s.length
  | _, [] => by simp [parseFields]
  | 0, _ :: _ => by simp [parseFields]
  | fuel + 1, tag :: s => by
    rw [parseFields]
    cases h : readField tag s with
    | none => simp
    | some x =>
      obtain ⟨f, rest⟩ := x
      have h1 := readField_payload h
      have h2 := parseFields_payload fuel rest
      simp only [map_append, sum_append, length_cons]
      omega

theorem parse_payload_le {extra : Bytes} {fields : List ExtraField} (h : parseTransactionExtra extra = some fields) :
    (fields.map ExtraField.payload).sum ≤ extra.length := by
  unfold parseTransactionExtra at h
  split at h
  · simp only [some.injEq] at h
    rw [← h]
    exact parseFields_payload _ _
  · cases h

/-- An extra that holds both a miner key and an account registration is longer
than both. -/
theorem minerKey_and_registration_length {extra : Bytes} {k : Blob pqAuthPubSize} {r : ExtraPqAccountRegistration}
    (hk : getPqMinerSpendPubFromExtra extra = some k) (hr : getPqAccountRegistrationFromExtra extra = some r) :
    pqAuthPubSize + (pqViewPubSize + pqAuthPubSize) ≤ extra.length := by
  simp only [getPqMinerSpendPubFromExtra, getPqAccountRegistrationFromExtra, fieldFromExtra, bind_eq_some_iff] at hk hr
  obtain ⟨fields, hp, hk⟩ := hk
  obtain ⟨fields', hp', hr⟩ := hr
  obtain rfl : fields = fields' := some.inj (hp.symm.trans hp')
  obtain ⟨f, hf, hfk⟩ := exists_of_findSome?_eq_some hk
  obtain ⟨g, hg, hgr⟩ := exists_of_findSome?_eq_some hr
  obtain rfl : f = .pqMinerSpendPub k := by
    cases f <;> simp [ExtraField.pqMinerSpendPub?] at hfk
    rw [hfk]
  obtain rfl : g = .pqAccountRegistration r := by
    cases g <;> simp [ExtraField.pqAccountRegistration?] at hgr
    rw [hgr]
  -- two different members of the list contribute two terms to the sum
  have hsum : pqAuthPubSize + (pqViewPubSize + pqAuthPubSize) ≤ (fields.map ExtraField.payload).sum := by
    obtain ⟨l₁, l₂, rfl⟩ := append_of_mem hf
    simp only [mem_append, mem_cons, reduceCtorEq, false_or] at hg
    have hle : ∀ l : List ExtraField, ExtraField.pqAccountRegistration r ∈ l →
        pqViewPubSize + pqAuthPubSize ≤ (l.map ExtraField.payload).sum := fun l hl =>
      le_sum_of_mem (List.mem_map.mpr ⟨_, hl, rfl⟩)
    simp only [map_append, map_cons, sum_append, sum_cons, ExtraField.payload]
    rcases hg with hg | hg
    · have := hle _ hg; omega
    · have := hle _ hg; omega
  exact hsum.trans (parse_payload_le hp)

end Discrete.L1
