import Discrete.L1Encoding.TxWire

/-!
# Block wire format (`CryptoNoteSerialization.cpp`)

A block is its header, one miner signature of fixed size, the coinbase and the hashes of its
other transactions. The header alone is also serialized, as the front part of the blob that
the miner signs and the block id commits to. The header refuses a major version outside 1 to 8
in both directions.
-/
namespace Discrete.L1
open Codec

def blockMajorVersion1 : UInt8 := 1
def blockMajorVersion2 : UInt8 := 2
def blockMajorVersion3 : UInt8 := 3
def blockMajorVersion8 : UInt8 := 8

/-- mirrors CryptoNoteSerialization.cpp:427-437 (OUTPUT) -/
def serializeBlockHeader (header : BlockHeader) : Out :=
  (Out.put (writeVarint8 header.majorVersion)).andThen <|
    if header.majorVersion < blockMajorVersion1 ∨ header.majorVersion > blockMajorVersion8 then .throw
    else
      .put (writeVarint8 header.minorVersion ++ (writeVarint64 header.timestamp ++
        (header.previousBlockHash.val ++ leBytes 4 header.nonce.toNat)))

/-- mirrors CryptoNoteSerialization.cpp:427-437 (INPUT) -/
def readBlockHeader : Reader BlockHeader := fun s => do
  let (majorVersion, s) ← readVarint8 s
  if majorVersion < blockMajorVersion1 ∨ majorVersion > blockMajorVersion8 then none
  else
    let (minorVersion, s) ← readVarint8 s
    let (timestamp, s) ← readVarint64 s
    let (previousBlockHash, s) ← readBlob 32 s
    let (nonce, s) ← readExact 4 s
    pure (⟨majorVersion, minorVersion, UInt32.ofNat (leValue nonce), timestamp, previousBlockHash⟩, s)

/-- mirrors CryptoNoteSerialization.cpp:443-460 (OUTPUT) -/
def serializeBlock (block : Block) : Out :=
  (serializeBlockHeader block.toBlockHeader).andThen <| (serializePqBlob pqSignatureSize block.signature).andThen <|
      (serializeTransaction block.baseTransaction).andThen <|
        serializeContainer (fun h : Hash => .put h.val) block.transactionHashes

/-- mirrors CryptoNoteSerialization.cpp:443-460 (INPUT) -/
def readBlock : Reader Block := fun s => do
  let (header, s) ← readBlockHeader s
  let (signature, s) ← readExact pqSignatureSize s
  let (baseTransaction, s) ← readTransaction s
  let (transactionHashes, s) ← readContainer (readBlob 32) s
  pure (⟨header, baseTransaction, signature, transactionHashes⟩, s)

/-- mirrors CryptoNoteTools.h:56-68 -/
def blockFromBinaryArray (s : Bytes) : Option Block :=
  match readBlock s with
  | some (b, []) => some b
  | _ => none

/-! ## What is accepted is what would be written -/

theorem readBlockHeader_canonical : CanonicalOut readBlockHeader serializeBlockHeader := by
  intro s header rest h
  simp only [readBlockHeader, Option.bind_eq_bind, Option.bind_eq_some_iff, Prod.exists] at h
  obtain ⟨major, s1, h1, h⟩ := h
  split at h
  · cases h
  rename_i hv
  simp only [Option.bind_eq_some_iff, Prod.exists, Option.pure_def, Option.some.injEq, Prod.mk.injEq] at h
  obtain ⟨minor, s2, h2, time, s3, h3, previous, s4, h4, nonce, s5, h5, rfl, rfl⟩ := h
  obtain ⟨rfl, hlen⟩ := readExact_eq_some.mp h5
  have hnonce : leBytes 4 (UInt32.ofNat (leValue nonce)).toNat = nonce := by
    have hlt := leValue_lt nonce
    rw [hlen] at hlt
    rw [UInt32.toNat_ofNat_of_lt' (by simpa using hlt), ← hlen, leBytes_leValue]
  refine ⟨by simp [serializeBlockHeader, hv], ?_⟩
  rw [readVarint8_canonical h1, readVarint8_canonical h2, readVarint64_canonical h3, readBlob_canonical _ h4,
    serializeBlockHeader, if_neg hv, Out.put_andThen_bytes, Out.put_bytes, hnonce]
  simp only [List.append_assoc]

theorem readBlock_canonical : CanonicalOut readBlock serializeBlock := by
  intro s b rest h
  simp only [readBlock, Option.bind_eq_bind, Option.bind_eq_some_iff, Prod.exists, Option.pure_def,
    Option.some.injEq, Prod.mk.injEq] at h
  obtain ⟨header, s1, h1, signature, s2, h2, tx, s3, h3, hashes, s4, h4, rfl, rfl⟩ := h
  obtain ⟨rfl, hsig⟩ := readExact_eq_some.mp h2
  have hblob : CanonicalOut (readBlob 32) (fun h : Hash => Out.put h.val) :=
    fun _ _ _ hread => ⟨rfl, readBlob_canonical 32 hread⟩
  obtain ⟨okHeader, e1⟩ := readBlockHeader_canonical h1
  obtain ⟨okTx, e3⟩ := readTransaction_canonical h3
  obtain ⟨okHashes, e4⟩ := readContainer_canonical hblob h4
  rw [e1, e3, e4]
  simp [serializeBlock, okHeader, okTx, okHashes, serializePqBlob_of_length hsig,
    Out.andThen_bytes _ okHeader, Out.andThen_bytes _ okTx]

/-! ## What a decoded block has -/

/-- A block that came from the wire. -/
structure Decoded (b : Block) : Prop where
  ok : (serializeBlock b).ok = true
  coinbase : WireReady b.baseTransaction

theorem Decoded.of_some {s : Bytes} {b : Block} (h : blockFromBinaryArray s = some b) :
    Decoded b ∧ s = (serializeBlock b).bytes := by
  unfold blockFromBinaryArray at h
  split at h
  · rename_i b' hread
    cases h
    obtain ⟨hok, hbytes⟩ := readBlock_canonical hread
    simp only [readBlock, Option.bind_eq_bind, Option.bind_eq_some_iff, Prod.exists, Option.pure_def,
      Option.some.injEq, Prod.mk.injEq] at hread
    obtain ⟨header, s1, -, signature, s2, -, tx, s3, h3, hashes, s4, -, rfl, -⟩ := hread
    exact ⟨⟨hok, .of_read h3⟩, by rw [hbytes, List.append_nil]⟩
  · cases h

theorem Decoded.parts {b : Block} (h : Decoded b) : (serializeBlockHeader b.toBlockHeader).ok = true ∧
    b.signature.length = pqSignatureSize ∧ (serializeTransaction b.baseTransaction).ok = true := by
  have hok := h.ok
  simp only [serializeBlock, Out.andThen_ok, Bool.and_eq_true, serializePqBlob_ok, decide_eq_true_eq] at hok
  exact ⟨hok.1, hok.2.1, hok.2.2.1⟩

/-- Each hash of the list takes its 32 bytes. -/
theorem Decoded.length_le {s : Bytes} {b : Block} (h : blockFromBinaryArray s = some b) :
    32 * b.transactionHashes.length ≤ s.length := by
  obtain ⟨hb, hs⟩ := Decoded.of_some h
  obtain ⟨hheader, hsig, htx⟩ := hb.parts
  have hflat : ∀ l : List Hash, (l.flatMap fun h => h.val).length = 32 * l.length := by
    intro l
    induction l with
    | nil => rfl
    | cons x l ih =>
      rw [List.flatMap_cons, List.length_append, ih, x.property, List.length_cons]
      omega
  have heach : ∀ l : List Hash, (Out.each (fun h : Hash => .put h.val) l).ok = true :=
    fun l => Out.each_ok.mpr fun _ _ => rfl
  have hbytes := Out.each_bytes (heach b.transactionHashes)
  rw [hs, serializeBlock, Out.andThen_bytes _ hheader, serializePqBlob_of_length hsig, Out.put_andThen_bytes,
    Out.andThen_bytes _ htx, serializeContainer, Out.put_andThen_bytes, hbytes]
  simp only [List.length_append, Out.put_bytes, hflat]
  omega

/-- Everything the header holds can be read off its bytes, and where they end. -/
theorem serializeBlockHeader_delimited :
    Delimited (fun h : BlockHeader => (serializeBlockHeader h).ok = true) (fun h => (serializeBlockHeader h).bytes) := by
  have hbytes : ∀ h : BlockHeader, (serializeBlockHeader h).ok = true → (serializeBlockHeader h).bytes =
      writeVarint8 h.majorVersion ++ (writeVarint8 h.minorVersion ++ (writeVarint64 h.timestamp ++
        (h.previousBlockHash.val ++ leBytes 4 h.nonce.toNat))) := by
    intro h hok
    rw [serializeBlockHeader] at hok ⊢
    split at hok
    · simp at hok
    · rename_i hv
      rw [if_neg hv, Out.put_andThen_bytes, Out.put_bytes]
  intro h h' hok hok' r r' e
  simp only [hbytes h hok, hbytes h' hok', List.append_assoc] at e
  obtain ⟨hmajor, e⟩ := readVarint8_inverts.delimited trivial trivial e
  obtain ⟨hminor, e⟩ := readVarint8_inverts.delimited trivial trivial e
  obtain ⟨htime, e⟩ := readVarint64_inverts.delimited trivial trivial e
  obtain ⟨hprevious, e⟩ := blob_delimited _ trivial trivial e
  obtain ⟨hnonce, e⟩ := leBytes_delimited 4 h.nonce.toNat_lt h'.nonce.toNat_lt e
  refine ⟨?_, e⟩
  cases h
  cases h'
  simp only [BlockHeader.mk.injEq]
  exact ⟨hmajor, hminor, UInt32.toNat_inj.mp hnonce, htime, hprevious⟩

end Discrete.L1
