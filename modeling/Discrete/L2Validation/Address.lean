import Discrete.L1Encoding.Bech32
import Discrete.L2Validation.PqDerive

/-!
# PQ addresses (`PqAddress.cpp`)

An address is the payload `version || varint(networkPrefix) || viewPub || spendPub ||
checksum` as a Bech32m string whose human-readable part names the network. The file has
its own copies of the Bech32m functions; they differ from those of `PqBech32.cpp` only in
that the encoder does not test for an empty human-readable part, and of the varint
functions; its reader takes any continuation of zero pieces, and drops what does not fit
64 bits, where the reader of `StreamTools.cpp` throws.

* `address_codec_iff`: an address with the derived checksum reads back, a string of one
  network is not one of the other, and an accepted string is the encoding of its address
  exactly when the network prefix in it is in shortest form.
* `address_two_strings`: a prefix in a longer form gives a second string.
-/
namespace Discrete.L2
open List Codec L1

structure PqAddress where
  version : UInt8
  networkPrefix : UInt64
  viewPub : Blob pqViewPubSize
  spendPub : Blob pqAuthPubSize
  checksum : Blob 4
  deriving DecidableEq

/-- The loop of the reader; `v` has 64 bits.
mirrors PqAddress.cpp:38-49 -/
def readAddressVarint : (shift v : Nat) → Reader Nat
  | _, _, [] => none
  | shift, v, b :: s =>
    if shift > 63 then none
    else
      let v := v ||| ((b.toNat % 128) <<< shift) % 2 ^ 64
      if b.toNat < 0x80 then some (v, s) else readAddressVarint (shift + 7) v s

/-- mirrors PqAddress.cpp:53-60 -/
def checksumPreimage (addr : PqAddress) : Bytes :=
  addr.version :: (writeVarint64 addr.networkPrefix ++ addr.viewPub.val ++ addr.spendPub.val)

section
variable (P : Primitives)

/-- mirrors PqAddress.cpp:188-194 -/
def pqAddressChecksum (addr : PqAddress) : Blob 4 :=
  ⟨(P.sha3_256 (checksumPreimage addr)).val.take 4, by
    rw [length_take, (P.sha3_256 (checksumPreimage addr)).property]
    decide⟩

/-- mirrors PqAddress.cpp:63-67 -/
def addressPayload (addr : PqAddress) (chk : Blob 4) : Bytes := checksumPreimage addr ++ chk.val

/-- mirrors PqAddress.cpp:69-82 -/
def parsePayload : Bytes → Option PqAddress
  | [] => none
  | version :: p => do
    let (networkPrefix, p) ← readAddressVarint 0 0 p
    if p.length ≠ pqViewPubSize + pqAuthPubSize + 4 then none
    else do
      let (viewPub, p) ← readBlob pqViewPubSize p
      let (spendPub, p) ← readBlob pqAuthPubSize p
      let (checksum, _) ← readBlob 4 p
      let addr : PqAddress := ⟨version, UInt64.ofNat networkPrefix, viewPub, spendPub, checksum⟩
      if pqAddressChecksum P addr = addr.checksum then some addr else none

/-- mirrors PqAddress.cpp:139-157 -/
def extendedBech32mEncode (hrp payload : Bytes) : Bytes := encodeSymbols hrp payload

/-- mirrors PqAddress.cpp:159-184 -/
def extendedBech32mDecode (str expectedHrp : Bytes) : Option Bytes := decodeBech32m str expectedHrp

def pqBech32Hrp (testnet : Bool) : Bytes := if testnet then ascii "tdisc" else ascii "disc"

/-- mirrors PqAddress.cpp:224-228 -/
def encodePqAddress (addr : PqAddress) (hrp : Bytes) : Bytes :=
  extendedBech32mEncode hrp (addressPayload addr (pqAddressChecksum P addr))

/-- mirrors PqAddress.cpp:213-222 -/
def makePqAddress (networkPrefix : UInt64) (viewPub : Blob pqViewPubSize) (spendPub : Blob pqAuthPubSize) :
    PqAddress :=
  let a : PqAddress := ⟨1, networkPrefix, viewPub, spendPub, ⟨List.replicate 4 0, length_replicate⟩⟩
  { a with checksum := pqAddressChecksum P a }

/-- 20 bits of a hash of the keys, for account numbers.
mirrors PqAddress.cpp:197-211 -/
def pqAccountFingerprint (testnet : Bool) (spendPub : Blob pqAuthPubSize) (viewPub : Blob pqViewPubSize) : UInt32 :=
  let h := P.sha3_256 (ascii "DISCRETE-ACCT-FP-v1" ++ (if testnet then 1 else 0) :: (spendPub.val ++ viewPub.val))
  let byte (i : Nat) : UInt32 := (h.val.getD i 0).toUInt32
  ((byte 0 <<< 12) ||| (byte 1 <<< 4) ||| (byte 2 >>> 4)) &&& 0xFFFFF

/-- mirrors PqAddress.cpp:241-249 -/
def decodePqAddress (str : Bytes) (testnet : Bool) : Option PqAddress :=
  match extendedBech32mDecode str (pqBech32Hrp testnet) with
  | none => none
  | some payload => parsePayload P payload

end

/-- The string of a payload whose network prefix the reader of `StreamTools.cpp` accepts:
in shortest form, within 64 bits. -/
def ShortPrefix (hrp s : Bytes) : Prop :=
  ∃ payload, s = extendedBech32mEncode hrp payload ∧ (readVarint64 (payload.drop 1)).isSome

/-! ## The two readers -/

/-- What the strict reader reads, the reader of addresses reads. -/
theorem readAddressVarint_of_strict : ∀ {s : Bytes} {shift temp v : Nat} {rest : Bytes},
    readVarintLoop 64 shift temp s = some (v, rest) → readAddressVarint shift temp s = some (v, rest)
  | [], _, _, _, _, h => by cases h
  | piece :: s, shift, temp, v, rest, h => by
    rw [readVarintLoop] at h
    split at h
    · cases h
    · rename_i hfits
      -- a piece that the strict reader lets through loses no bits
      have hshift : ¬ shift > 63 := by
        intro hgt
        refine hfits ⟨by omega, ?_⟩
        rw [show 64 - shift = 0 by omega]
        by_contra hlt
        have hzero : piece.toNat = 0 := by omega
        dsimp only at h
        rw [if_pos (by omega), if_pos ⟨hzero, by omega⟩] at h
        cases h
      have hbits : (piece.toNat % 128) <<< shift < 2 ^ 64 := by
        have hsplit : 2 ^ 64 = 2 ^ (64 - shift) * 2 ^ shift := by rw [← Nat.pow_add]; congr 1; omega
        have hpiece : piece.toNat % 128 < 2 ^ (64 - shift) := by
          by_cases hge : shift ≥ 64 - 7
          · have hlt : piece.toNat < 2 ^ (64 - shift) := by
              by_contra hc
              exact hfits ⟨hge, by omega⟩
            exact Nat.lt_of_le_of_lt (Nat.mod_le _ _) hlt
          · have hpow : 2 ^ 7 ≤ 2 ^ (64 - shift) := Nat.pow_le_pow_right (by decide) (by omega)
            have := Nat.mod_lt piece.toNat (show 0 < 128 by decide)
            omega
        rw [Nat.shiftLeft_eq, hsplit]
        exact Nat.mul_lt_mul_of_pos_right hpiece (Nat.two_pow_pos _)
      rw [readAddressVarint, if_neg hshift]
      dsimp only at h ⊢
      rw [Nat.mod_eq_of_lt hbits]
      split at h
      · rename_i hlast
        rw [if_pos hlast]
        split at h
        · cases h
        · exact h
      · rename_i hmore
        rw [if_neg hmore]
        exact readAddressVarint_of_strict h

theorem readAddressVarint_write (v : UInt64) (rest : Bytes) :
    readAddressVarint 0 0 (writeVarint64 v ++ rest) = some (v.toNat, rest) := by
  refine readAddressVarint_of_strict ?_
  exact readVarint_inverts (Nat.le_refl 64) v.toNat_lt rest

/-- An accepted prefix is in shortest form exactly when the strict reader takes it. -/
theorem writeVarint_iff_strict {s rest : Bytes} {v : Nat} (h : readAddressVarint 0 0 s = some (v, rest)) :
    s = writeVarint64 (UInt64.ofNat v) ++ rest ↔ (readVarint64 s).isSome := by
  constructor
  · intro e
    rw [e, readVarint64_inverts trivial rest]
    rfl
  · intro hsome
    obtain ⟨⟨v', rest'⟩, hstrict⟩ := Option.isSome_iff_exists.mp hsome
    have e := readVarint64_canonical hstrict
    rw [e, readAddressVarint_write, Option.some.injEq, Prod.mk.injEq] at h
    obtain ⟨rfl, rfl⟩ := h
    rw [UInt64.ofNat_toNat]
    exact e

/-! ## Payloads -/

section
variable {P : Primitives}

/-- What a payload that parses looks like. -/
theorem parsePayload_eq_some {p : Bytes} {a : PqAddress} :
    parsePayload P p = some a ↔ ∃ s v, p = a.version :: s ∧
      readAddressVarint 0 0 s = some (v, a.viewPub.val ++ a.spendPub.val ++ a.checksum.val) ∧
      a.networkPrefix = UInt64.ofNat v ∧ pqAddressChecksum P a = a.checksum := by
  constructor
  · intro h
    cases p with
    | nil => cases h
    | cons version p =>
      simp only [parsePayload, Option.bind_eq_bind, Option.bind_eq_some_iff, Prod.exists] at h
      obtain ⟨v, rest, hv, h⟩ := h
      split at h
      · cases h
      · rename_i hlen
        rw [not_not] at hlen
        simp only [Option.bind_eq_some_iff, Prod.exists] at h
        obtain ⟨viewPub, p1, h1, spendPub, p2, h2, checksum, p3, h3, h⟩ := h
        have e1 := readBlob_canonical _ h1
        have e2 := readBlob_canonical _ h2
        have e3 := readBlob_canonical _ h3
        split at h
        · rename_i hchk
          obtain rfl := Option.some.inj h
          have hempty : p3 = [] := by
            rw [e1, e2, e3] at hlen
            simp only [length_append, viewPub.property, spendPub.property, checksum.property] at hlen
            exact length_eq_zero_iff.mp (by omega)
          refine ⟨p, v, rfl, ?_, rfl, hchk⟩
          rw [hv, e1, e2, e3, hempty, append_nil, append_assoc]
        · cases h
  · intro ⟨s, v, hp, hv, hprefix, hchk⟩
    have hlen : ¬ (a.viewPub.val ++ a.spendPub.val ++ a.checksum.val).length ≠ pqViewPubSize + pqAuthPubSize + 4 := by
      rw [not_not, length_append, length_append, a.viewPub.property, a.spendPub.property, a.checksum.property]
    have h1 := readBlob_inverts pqViewPubSize (a := a.viewPub) trivial (a.spendPub.val ++ a.checksum.val)
    have h2 := readBlob_inverts pqAuthPubSize (a := a.spendPub) trivial a.checksum.val
    have h3 := readBlob_inverts 4 (a := a.checksum) trivial []
    rw [append_nil] at h3
    simp only [hp, parsePayload, hv, Option.bind_eq_bind, Option.bind_some]
    rw [if_neg hlen, append_assoc, h1, Option.bind_some, h2, Option.bind_some, h3, Option.bind_some]
    have ha : (⟨a.version, UInt64.ofNat v, a.viewPub, a.spendPub, a.checksum⟩ : PqAddress) = a := by
      rw [← hprefix]
    rw [ha, if_pos hchk]

theorem parsePayload_addressPayload (a : PqAddress) :
    parsePayload P (addressPayload a (pqAddressChecksum P a)) = some { a with checksum := pqAddressChecksum P a } := by
  have hpayload : addressPayload a (pqAddressChecksum P a) = a.version :: (writeVarint64 a.networkPrefix ++
      (a.viewPub.val ++ a.spendPub.val ++ (pqAddressChecksum P a).val)) := by
    simp [addressPayload, checksumPreimage]
  rw [parsePayload_eq_some]
  exact ⟨_, a.networkPrefix.toNat, hpayload, readAddressVarint_write _ _, UInt64.ofNat_toNat.symm, rfl⟩

/-! ## Strings -/

theorem pqBech32Hrp_ne_nil (testnet : Bool) : pqBech32Hrp testnet ≠ [] := by cases testnet <;> decide

theorem decodePqAddress_eq_some {s : Bytes} {testnet : Bool} {a : PqAddress} :
    decodePqAddress P s testnet = some a ↔
      ∃ payload, s = extendedBech32mEncode (pqBech32Hrp testnet) payload ∧ parsePayload P payload = some a := by
  unfold decodePqAddress extendedBech32mDecode extendedBech32mEncode
  constructor
  · intro h
    cases hp : decodeBech32m s (pqBech32Hrp testnet) with
    | none =>
      rw [hp] at h
      cases h
    | some payload =>
      rw [hp] at h
      exact ⟨payload, encodeSymbols_decode hp, h⟩
  · intro ⟨payload, hs, h⟩
    rw [hs, decode_encodeSymbols (pqBech32Hrp_ne_nil testnet)]
    exact h

theorem decode_encodePqAddress (a : PqAddress) (testnet : Bool) :
    decodePqAddress P (encodePqAddress P a (pqBech32Hrp testnet)) testnet =
      some { a with checksum := pqAddressChecksum P a } :=
  decodePqAddress_eq_some.mpr ⟨_, rfl, parsePayload_addressPayload a⟩

theorem extendedBech32mEncode_inj {hrp : Bytes} (hne : hrp ≠ []) {p p' : Bytes}
    (h : extendedBech32mEncode hrp p = extendedBech32mEncode hrp p') : p = p' := by
  have hp := decode_encodeSymbols hne p
  rw [show encodeSymbols hrp p = encodeSymbols hrp p' from h, decode_encodeSymbols hne p'] at hp
  exact (Option.some.inj hp).symm

/-- The human-readable part is what is before the last separator. -/
theorem decode_one_hrp {s hrp hrp' p p' : Bytes} (h : decodeBech32m s hrp = some p) (h' : decodeBech32m s hrp' = some p') :
    hrp = hrp' := by
  obtain ⟨-, data, hs, hall, -⟩ := decodeBech32m_eq_some.mp h
  obtain ⟨-, data', hs', hall', -⟩ := decodeBech32m_eq_some.mp h'
  have hfind := rfind_append hrp (separator_not_mem hall)
  have hfind' := rfind_append hrp' (separator_not_mem hall')
  rw [← hs] at hfind
  rw [← hs', hfind, Option.some.injEq] at hfind'
  exact (append_inj (hs.symm.trans hs') hfind').1

theorem decode_other_network {s : Bytes} {testnet : Bool} {a : PqAddress} (h : decodePqAddress P s testnet = some a) :
    decodePqAddress P s (!testnet) = none := by
  obtain ⟨payload, hs, -⟩ := decodePqAddress_eq_some.mp h
  cases hother : decodePqAddress P s (!testnet) with
  | none => rfl
  | some b =>
    obtain ⟨payload', hs', -⟩ := decodePqAddress_eq_some.mp hother
    have hd : decodeBech32m s (pqBech32Hrp testnet) = some payload := by
      rw [hs]
      exact decode_encodeSymbols (pqBech32Hrp_ne_nil testnet) payload
    have hd' : decodeBech32m s (pqBech32Hrp !testnet) = some payload' := by
      rw [hs']
      exact decode_encodeSymbols (pqBech32Hrp_ne_nil _) payload'
    have hhrp := decode_one_hrp hd hd'
    cases testnet <;> exact absurd hhrp (by decide)

/-- An accepted string is the encoding of its address exactly when the prefix is short. -/
theorem encode_iff_shortPrefix {s : Bytes} {testnet : Bool} {a : PqAddress} (h : decodePqAddress P s testnet = some a) :
    s = encodePqAddress P a (pqBech32Hrp testnet) ↔ ShortPrefix (pqBech32Hrp testnet) s := by
  obtain ⟨payload, hs, hparse⟩ := decodePqAddress_eq_some.mp h
  obtain ⟨p, v, rfl, hv, hprefix, hchk⟩ := parsePayload_eq_some.mp hparse
  have hpayload : (a.version :: p = addressPayload a (pqAddressChecksum P a)) ↔ (readVarint64 p).isSome := by
    rw [← writeVarint_iff_strict hv, addressPayload, checksumPreimage, cons_append, List.cons.injEq, ← hprefix, hchk]
    simp only [true_and, append_assoc]
  constructor
  · intro e
    refine ⟨_, hs, hpayload.mp ?_⟩
    rw [hs] at e
    exact extendedBech32mEncode_inj (pqBech32Hrp_ne_nil testnet) e
  · intro ⟨payload', hs', hshort⟩
    obtain rfl := extendedBech32mEncode_inj (pqBech32Hrp_ne_nil testnet) (hs.symm.trans hs')
    rw [hs, encodePqAddress, ← hpayload.mpr hshort]

/-- The codec, for every address, every string and both networks. -/
theorem address_codec_iff :
    (∀ (a : PqAddress) (testnet : Bool),
      decodePqAddress P (encodePqAddress P a (pqBech32Hrp testnet)) testnet = some a ↔
        a.checksum = pqAddressChecksum P a) ∧
    ∀ (s : Bytes) (testnet : Bool) (a : PqAddress), decodePqAddress P s testnet = some a →
      decodePqAddress P s (!testnet) = none ∧
      (s = encodePqAddress P a (pqBech32Hrp testnet) ↔ ShortPrefix (pqBech32Hrp testnet) s) := by
  refine ⟨fun a testnet => ?_, fun s testnet a h => ⟨decode_other_network h, encode_iff_shortPrefix h⟩⟩
  rw [decode_encodePqAddress, Option.some.injEq]
  constructor
  · intro e
    exact (congrArg PqAddress.checksum e).symm
  · intro e
    rw [← e]

end

/-- A constant in place of the hash: what follows does not depend on it. -/
def constPrimitives : Primitives := ⟨fun _ => nullHash, fun _ => nullHash, fun _ _ _ => false⟩

def zeroAddress : PqAddress :=
  let a : PqAddress := ⟨1, 0, ⟨List.replicate pqViewPubSize 0, length_replicate⟩,
    ⟨List.replicate pqAuthPubSize 0, length_replicate⟩, ⟨List.replicate 4 0, length_replicate⟩⟩
  { a with checksum := pqAddressChecksum constPrimitives a }

/-- The string of an address decodes, on its network only, and has a short prefix. -/
theorem address_codec_zero :
    ∃ s, decodePqAddress constPrimitives s false = some zeroAddress ∧ decodePqAddress constPrimitives s true = none ∧
      s = encodePqAddress constPrimitives zeroAddress (pqBech32Hrp false) ∧ ShortPrefix (pqBech32Hrp false) s := by
  have h := (address_codec_iff.1 zeroAddress false).mpr rfl
  obtain ⟨hother, hiff⟩ := address_codec_iff.2 _ _ _ h
  exact ⟨_, h, hother, rfl, hiff.mp rfl⟩

/-- The prefix 0 written in two pieces is accepted too. -/
theorem address_two_strings :
    ∃ s, decodePqAddress constPrimitives s false = some zeroAddress ∧
      s ≠ encodePqAddress constPrimitives zeroAddress (pqBech32Hrp false) := by
  have h : decodePqAddress constPrimitives (extendedBech32mEncode (pqBech32Hrp false) (1 :: 0x80 :: 0x00 ::
      (zeroAddress.viewPub.val ++ zeroAddress.spendPub.val ++ zeroAddress.checksum.val))) false = some zeroAddress :=
    decodePqAddress_eq_some.mpr ⟨_, rfl, parsePayload_eq_some.mpr ⟨_, 0, rfl, rfl, rfl, rfl⟩⟩
  refine ⟨_, h, fun e => ?_⟩
  obtain ⟨payload, hs, hshort⟩ := (encode_iff_shortPrefix h).mp e
  obtain rfl := extendedBech32mEncode_inj (pqBech32Hrp_ne_nil false) hs
  cases hshort

end Discrete.L2
