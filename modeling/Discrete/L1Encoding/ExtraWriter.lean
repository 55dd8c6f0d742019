import Discrete.L1Encoding.TxExtra

/-!
# Writing the transaction extra (`TransactionExtra.cpp`)

`writeTransactionExtra` appends one field after the other; a field has no length of its own
beyond what its type fixes, so the parser of `TxExtra` finds the fields again from their tags.
Padding has no end mark: it is the rest of the extra, and its first byte is its tag.

* `parse_write`: fields that the writers take, with padding only at the end, are read back.
* `extra_codec` adds the canonical form of a free registration: it is what the writers make
  of one registration and one proof of work, and there is one such extra for each.
* `empty_padding_lost`: a padding of size zero is accepted and leaves nothing to read.
-/
namespace Discrete.L1
open List Option Codec

def txExtraNonceMaxCount : Nat := 255

/-- mirrors CryptoNoteSerialization.cpp:470-484 (OUTPUT) -/
def writeMergeMiningTag (t : ExtraMergeMiningTag) : Bytes :=
  let field := writeVarint64 t.depth ++ t.merkleRoot.val
  writeVarint field.length ++ field

/-- What the visitor appends for one field; `none` where it returns `false`.
mirrors TransactionExtra.cpp:135-178,204-237,303-310,357-366,396-408,450-455 -/
def writeField : ExtraField → Option Bytes
  | .padding size => if size > txExtraPaddingMaxCount then none else some (List.replicate size 0)
  | .publicKey k => some (txExtraTagPubkey :: k.val)
  | .nonce b =>
    if b.length > txExtraNonceMaxCount then none else some (txExtraNonce :: UInt8.ofNat b.length :: b)
  | .mergeMiningTag t => some (txExtraMergeMiningTag :: writeMergeMiningTag t)
  | .accountRegistration r => some (txExtraTagAccountRegistration :: (r.spendPublicKey.val ++ r.viewPublicKey.val))
  | .pqAccountRegistration r => some (txExtraTagPqAccountRegistration :: (r.viewPub.val ++ r.spendPub.val))
  | .pow p => some (txExtraTagPow :: (p.refBlockHash.val ++ leBytes 8 p.nonce.toNat))
  | .pqMinerSpendPub k => some (txExtraTagPqMinerSpendPub :: k.val)

/-- mirrors TransactionExtra.cpp:180-191 -/
def writeTransactionExtra (extra : Bytes) (fields : List ExtraField) : Option Bytes :=
  fields.foldlM (fun extra f => (writeField f).map (extra ++ ·)) extra

/-! ## One field -/

/-- The sizes the writers take and the parser can tell from nothing. -/
def ExtraField.Writable : ExtraField → Prop
  | .padding size => size ≠ 0 ∧ size ≤ txExtraPaddingMaxCount
  | .nonce b => b.length ≤ txExtraNonceMaxCount
  | _ => True

def ExtraField.isPadding : ExtraField → Bool
  | .padding _ => true
  | _ => false

theorem readMergeMiningTag_write (t : ExtraMergeMiningTag) (rest : Bytes) :
    readMergeMiningTag (writeMergeMiningTag t ++ rest) = some (t, rest) := by
  have hlen : (writeVarint64 t.depth ++ t.merkleRoot.val).length ≤ maxBinaryStringSize := by
    rw [length_append, t.merkleRoot.property]
    have := writeVarint_length_le t.depth.toNat
    unfold writeVarint64 maxBinaryStringSize
    omega
  have hroot : readBlob 32 (t.merkleRoot.val ++ []) = some (t.merkleRoot, []) :=
    readBlob_inverts 32 trivial []
  rw [append_nil] at hroot
  simp only [readMergeMiningTag, writeMergeMiningTag, readBinaryString_write hlen, bind_eq_bind,
    bind_some, readVarint64_inverts (show True from trivial), hroot]
  rfl

theorem readNonce_write {b : Bytes} (h : b.length ≤ txExtraNonceMaxCount) (rest : Bytes) :
    readNonce (UInt8.ofNat b.length :: b ++ rest) = some (b, rest) := by
  have hsize : (UInt8.ofNat b.length).toNat = b.length := by
    rw [UInt8.toNat_ofNat']
    unfold txExtraNonceMaxCount at h
    omega
  simp only [readNonce, cons_append, readByte, bind_eq_bind, bind_some, hsize]
  exact readExact_eq_some.mpr ⟨rfl, rfl⟩

theorem readPow_write (p : ExtraPow) (rest : Bytes) :
    readPow (p.refBlockHash.val ++ leBytes 8 p.nonce.toNat ++ rest) = some (p, rest) := by
  have hnonce : readExact 8 (leBytes 8 p.nonce.toNat ++ rest) = some (leBytes 8 p.nonce.toNat, rest) :=
    readExact_eq_some.mpr ⟨rfl, leBytes_length _ _⟩
  have hvalue : leValue (leBytes 8 p.nonce.toNat) = p.nonce.toNat := leValue_leBytes p.nonce.toNat_lt
  simp only [readPow, append_assoc, readBlob_inverts 32 (show True from trivial), bind_eq_bind,
    bind_some, hnonce, hvalue, UInt64.ofNat_toNat]
  rfl

/-- A written field other than padding is its tag and what the parser takes behind the tag. -/
theorem readField_write {f : ExtraField} (hw : f.Writable) (hp : f.isPadding = false) :
    ∃ tag s, writeField f = some (tag :: s) ∧ ∀ rest, readField tag (s ++ rest) = some (some f, rest) := by
  cases f with
  | padding size => cases hp
  | publicKey k =>
    refine ⟨_, _, rfl, fun rest => ?_⟩
    rw [readField, readBlob_inverts 32 trivial rest]
    rfl
  | nonce b =>
    have hb : b.length ≤ txExtraNonceMaxCount := hw
    refine ⟨txExtraNonce, UInt8.ofNat b.length :: b, if_neg (not_lt.mpr hb), fun rest => ?_⟩
    rw [readField, readNonce_write hb rest]
    rfl
  | mergeMiningTag t =>
    refine ⟨_, _, rfl, fun rest => ?_⟩
    rw [readField, readMergeMiningTag_write t rest]
    rfl
  | accountRegistration r =>
    refine ⟨_, _, rfl, fun rest => ?_⟩
    have hread : readAccountRegistration (r.spendPublicKey.val ++ r.viewPublicKey.val ++ rest) = some (r, rest) := by
      simp only [readAccountRegistration, append_assoc, readBlob_inverts 32 (show True from trivial),
        bind_eq_bind, bind_some]
      rfl
    rw [readField, hread]
    rfl
  | pqAccountRegistration r =>
    refine ⟨_, _, rfl, fun rest => ?_⟩
    have hread : readPqAccountRegistration (r.viewPub.val ++ r.spendPub.val ++ rest) = some (r, rest) := by
      simp only [readPqAccountRegistration, append_assoc, readBlob_inverts pqViewPubSize (show True from trivial),
        readBlob_inverts pqAuthPubSize (show True from trivial), bind_eq_bind, bind_some]
      rfl
    rw [readField, hread]
    rfl
  | pow p =>
    refine ⟨_, _, rfl, fun rest => ?_⟩
    rw [readField, readPow_write]
    rfl
  | pqMinerSpendPub k =>
    refine ⟨_, _, rfl, fun rest => ?_⟩
    rw [readField, readBlob_inverts pqAuthPubSize trivial rest]
    rfl

/-- Padding is read back when nothing follows it. -/
theorem readField_padding {size : Nat} (h0 : size ≠ 0) (hle : size ≤ txExtraPaddingMaxCount) :
    ∃ s, writeField (.padding size) = some (txExtraTagPadding :: s) ∧
      readField txExtraTagPadding s = some (some (.padding size), []) := by
  obtain ⟨n, rfl⟩ := Nat.exists_eq_succ_of_ne_zero h0
  refine ⟨List.replicate n 0, if_neg (not_lt.mpr hle), ?_⟩
  have hread : readPadding (List.replicate n 0) = some (1 + n, []) := by
    rw [readPadding, if_pos ⟨by rw [length_replicate]; exact hle, by simp⟩, length_replicate]
  rw [readField, if_pos rfl, hread, Nat.add_comm]
  rfl

/-! ## The whole extra -/

theorem writeTransactionExtra_cons (extra : Bytes) (f : ExtraField) (fields : List ExtraField) :
    writeTransactionExtra extra (f :: fields) =
      (writeField f).bind fun b => writeTransactionExtra (extra ++ b) fields := by
  rw [writeTransactionExtra, foldlM_cons, bind_eq_bind, bind_map]
  rfl

/-- The parser takes one turn per written field; `fuel` only has to cover the bytes. -/
theorem parseFields_write : ∀ {fields : List ExtraField} (extra : Bytes), (∀ f ∈ fields, f.Writable) →
    (∀ f ∈ fields.dropLast, f.isPadding = false) → ∃ bytes, writeTransactionExtra extra fields = some (extra ++ bytes) ∧
      ∀ fuel, bytes.length ≤ fuel → parseFields fuel bytes = (fields, true)
  | [], extra, _, _ => ⟨[], by rw [append_nil]; rfl, fun fuel _ => by cases fuel <;> rfl⟩
  | f :: fields, extra, hw, hp => by
    have hf := hw f (mem_cons_self ..)
    by_cases hpad : f.isPadding = true
    · -- padding is the last field
      obtain ⟨size, rfl⟩ : ∃ size, f = .padding size := by
        cases f <;> first | exact ⟨_, rfl⟩ | cases hpad
      have hlast : fields = [] := by
        by_contra hne
        have := hp (.padding size) (by rw [dropLast_cons_of_ne_nil hne]; exact mem_cons_self ..)
        cases this
      subst hlast
      obtain ⟨s, hwrite, hread⟩ := readField_padding hf.1 hf.2
      refine ⟨txExtraTagPadding :: s, by rw [writeTransactionExtra_cons, hwrite]; rfl, fun fuel hfuel => ?_⟩
      obtain ⟨k, rfl⟩ := Nat.exists_eq_succ_of_ne_zero (show fuel ≠ 0 by rw [length_cons] at hfuel; omega)
      rw [parseFields, hread]
      cases k <;> rfl
    · obtain ⟨tag, s, hwrite, hread⟩ := readField_write hf (Bool.eq_false_iff.mpr hpad)
      have hp' : ∀ g ∈ fields.dropLast, g.isPadding = false := fun g hg => hp g (by
        cases fields with
        | nil => cases hg
        | cons g' l => exact mem_cons_of_mem _ hg)
      obtain ⟨bytes, hbytes, hparse⟩ := parseFields_write (extra ++ tag :: s)
        (fun g hg => hw g (mem_cons_of_mem _ hg)) hp'
      refine ⟨tag :: s ++ bytes, ?_, fun fuel hfuel => ?_⟩
      · rw [writeTransactionExtra_cons, hwrite, bind_some, hbytes, append_assoc]
      · rw [length_append, length_cons] at hfuel
        obtain ⟨k, rfl⟩ := Nat.exists_eq_succ_of_ne_zero (show fuel ≠ 0 by omega)
        rw [cons_append, parseFields, hread]
        dsimp only
        rw [hparse k (by omega)]
        rfl

theorem parse_write {fields : List ExtraField} (hw : ∀ f ∈ fields, f.Writable)
    (hp : ∀ f ∈ fields.dropLast, f.isPadding = false) :
    ∃ extra, writeTransactionExtra [] fields = some extra ∧ parseTransactionExtra extra = some fields := by
  obtain ⟨bytes, hwrite, hparse⟩ := parseFields_write [] hw hp
  refine ⟨bytes, hwrite, ?_⟩
  rw [parseTransactionExtra, hparse _ le_rfl]
  rfl

/-! ## Free registrations -/

/-- The canonical extra of a registration with its proof of work. -/
def freeRegExtra (reg : ExtraPqAccountRegistration) (pow : ExtraPow) : Bytes :=
  txExtraTagPqAccountRegistration :: (reg.viewPub.val ++ reg.spendPub.val) ++
    txExtraTagPow :: (pow.refBlockHash.val ++ leBytes 8 pow.nonce.toNat)

theorem write_freeReg (reg : ExtraPqAccountRegistration) (pow : ExtraPow) :
    writeTransactionExtra [] [.pqAccountRegistration reg, .pow pow] = some (freeRegExtra reg pow) := rfl

theorem parse_freeReg (reg : ExtraPqAccountRegistration) (pow : ExtraPow) :
    parseTransactionExtra (freeRegExtra reg pow) = some [.pqAccountRegistration reg, .pow pow] := by
  have hw : ∀ f ∈ [ExtraField.pqAccountRegistration reg, .pow pow], f.Writable := by simp [ExtraField.Writable]
  have hp : ∀ f ∈ [ExtraField.pqAccountRegistration reg, .pow pow].dropLast, f.isPadding = false := by
    simp [ExtraField.isPadding]
  obtain ⟨extra, hwrite, hparse⟩ := parse_write hw hp
  rw [write_freeReg, some.injEq] at hwrite
  rw [hwrite, hparse]

theorem exists_blob {n : Nat} {s : Bytes} (h : n ≤ s.length) :
    ∃ (b : Blob n) (rest : Bytes), s = b.val ++ rest ∧ rest.length + n = s.length :=
  ⟨⟨s.take n, length_take_of_le h⟩, s.drop n, (take_append_drop n s).symm, by
    rw [length_drop]
    omega⟩

/-- Eight bytes are the nonce they stand for. -/
theorem exists_nonce {s : Bytes} (h : s.length = 8) : ∃ nonce : UInt64, s = leBytes 8 nonce.toNat := by
  have hlt : leValue s < 2 ^ 64 := lt_of_lt_of_eq (leValue_lt s) (by rw [h]; rfl)
  refine ⟨UInt64.ofNat (leValue s), ?_⟩
  rw [UInt64.toNat_ofNat_of_lt' hlt, ← h, leBytes_leValue]

/-- The byte checks cut the extra at the two tags, and every part of the right length is a field. -/
theorem isCanonicalFreeRegExtra_iff (extra : Bytes) :
    isCanonicalFreeRegExtra extra = true ↔ ∃ reg pow, extra = freeRegExtra reg pow := by
  simp only [isCanonicalFreeRegExtra, Bool.and_eq_true, decide_eq_true_eq]
  constructor
  · rintro ⟨⟨hlen, hreg⟩, hpow⟩
    obtain ⟨tag, s, rfl⟩ := exists_cons_of_length_pos (l := extra) (by omega)
    obtain rfl : tag = txExtraTagPqAccountRegistration := by simpa using hreg
    rw [length_cons] at hlen
    rw [Nat.add_comm, getElem?_cons_succ] at hpow
    obtain ⟨viewPub, s, rfl, h1⟩ := exists_blob (n := pqViewPubSize) (s := s) (by omega)
    obtain ⟨spendPub, s, rfl, h2⟩ := exists_blob (n := pqAuthPubSize) (s := s) (by omega)
    rw [← append_assoc, getElem?_append_right (by
      rw [length_append, viewPub.property, spendPub.property]), length_append, viewPub.property,
      spendPub.property, Nat.sub_self] at hpow
    obtain ⟨tag, s, rfl⟩ := exists_cons_of_length_pos (l := s) (by omega)
    obtain rfl : tag = txExtraTagPow := by simpa using hpow
    rw [length_cons] at h2
    obtain ⟨refBlockHash, s, rfl, h3⟩ := exists_blob (n := 32) (s := s) (by omega)
    obtain ⟨nonce, rfl⟩ := exists_nonce (s := s) (by omega)
    exact ⟨⟨viewPub, spendPub⟩, ⟨refBlockHash, nonce⟩, by simp [freeRegExtra]⟩
  · rintro ⟨reg, pow, rfl⟩
    refine ⟨⟨?_, rfl⟩, ?_⟩
    · simp only [freeRegExtra, length_append, length_cons, reg.viewPub.property, reg.spendPub.property,
        pow.refBlockHash.property, leBytes_length]
      omega
    · rw [freeRegExtra, Nat.add_comm, cons_append, getElem?_cons_succ, getElem?_append_right (by
        rw [length_append, reg.viewPub.property, reg.spendPub.property]), length_append,
        reg.viewPub.property, reg.spendPub.property, Nat.sub_self]
      rfl

/-- What is written is read back, and a free registration has one canonical extra. -/
theorem extra_codec :
    (∀ fields : List ExtraField, (∀ f ∈ fields, f.Writable) → (∀ f ∈ fields.dropLast, f.isPadding = false) →
      ∃ extra, writeTransactionExtra [] fields = some extra ∧ parseTransactionExtra extra = some fields) ∧
    (∀ extra, isCanonicalFreeRegExtra extra = true ↔
      ∃ reg pow, writeTransactionExtra [] [.pqAccountRegistration reg, .pow pow] = some extra) ∧
    ∀ reg pow, ∃! extra, isCanonicalFreeRegExtra extra = true ∧
      getPqAccountRegistrationFromExtra extra = some reg ∧ getPowTagFromExtra extra = some pow := by
  refine ⟨fun fields => parse_write, fun extra => ?_, fun reg pow => ?_⟩
  · rw [isCanonicalFreeRegExtra_iff]
    simp only [write_freeReg, some.injEq, eq_comm]
  · refine ⟨freeRegExtra reg pow, ⟨(isCanonicalFreeRegExtra_iff _).mpr ⟨reg, pow, rfl⟩, ?_, ?_⟩, ?_⟩
    · rw [getPqAccountRegistrationFromExtra, fieldFromExtra, parse_freeReg]
      rfl
    · rw [getPowTagFromExtra, fieldFromExtra, parse_freeReg]
      rfl
    · rintro extra ⟨hcanon, hreg, hpow⟩
      obtain ⟨reg', pow', rfl⟩ := (isCanonicalFreeRegExtra_iff extra).mp hcanon
      rw [getPqAccountRegistrationFromExtra, fieldFromExtra, parse_freeReg] at hreg
      rw [getPowTagFromExtra, fieldFromExtra, parse_freeReg] at hpow
      obtain rfl : reg' = reg := some.inj hreg
      obtain rfl : pow' = pow := some.inj hpow
      rfl

/-- A nonce and padding behind it. -/
theorem extra_codec_padded : writeTransactionExtra [] [.nonce [7], .padding 2] = some [2, 1, 7, 0, 0] ∧
    ∃ extra, writeTransactionExtra [] [.nonce [7], .padding 2] = some extra ∧
      parseTransactionExtra extra = some [.nonce [7], .padding 2] :=
  ⟨by decide, extra_codec.1 _ (by
    intro f hf
    simp only [mem_cons, not_mem_nil, or_false] at hf
    rcases hf with rfl | rfl
    · exact Nat.le_of_ble_eq_true rfl
    · exact ⟨by decide, by decide⟩) (by decide)⟩

/-- A padding of size zero writes nothing, so it is not read back; sizes over 255 are refused. -/
theorem empty_padding_lost :
    (∀ f ∈ [ExtraField.padding 0].dropLast, f.isPadding = false) ∧
    writeTransactionExtra [] [.padding 0] = some [] ∧ parseTransactionExtra [] ≠ some [.padding 0] ∧
    writeTransactionExtra [] [.padding 256] = none ∧ writeTransactionExtra [] [.nonce (List.replicate 256 0)] = none := by
  decide +kernel

end Discrete.L1
