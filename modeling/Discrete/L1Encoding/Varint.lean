import Discrete.Core.Codec

/-!
# Varints (`StreamTools.cpp`)

`writeVarint` emits base-128 pieces, least significant first, with `0x80` on
every piece but the last. `readVarint` is overloaded on the destination width
(`uint8_t`, `uint16_t`, `uint32_t`, `uint64_t`); the four bodies differ only in
`sizeof(temp) * 8`, which is the parameter `bits` here. A piece that does not
fit the width and a multi-piece value that ends in a zero piece both throw.

* `readVarint_canonical`: an accepted varint is the one `writeVarint` emits.
* `readVarint_inverts`: every value below `2 ^ bits` reads back.
-/
namespace Discrete.L1
open Codec

/-- The loop of `writeVarint`; `fuel` bounds the number of continuation pieces. -/
def writeVarintLoop : (fuel value : Nat) → Bytes
  | 0, value => [UInt8.ofNat value]
  | fuel + 1, value =>
    if value ≥ 0x80 then UInt8.ofNat (value % 128 + 128) :: writeVarintLoop fuel (value / 128)
    else [UInt8.ofNat value]

/-- A 64-bit value has at most nine continuation pieces.
mirrors StreamTools.cpp:232-248 -/
def writeVarint (value : Nat) : Bytes := writeVarintLoop 9 value

/-- The loop of `readVarint` for a destination of `bits` bits.
mirrors StreamTools.cpp:86-172 -/
def readVarintLoop (bits : Nat) : (shift temp : Nat) → Reader Nat
  | _, _, [] => none
  | shift, temp, piece :: s =>
    if shift ≥ bits - 7 ∧ piece.toNat ≥ 2 ^ (bits - shift) then none
    else
      let temp := temp ||| (piece.toNat % 128) <<< shift
      if piece.toNat < 0x80 then
        if piece.toNat = 0 ∧ shift ≠ 0 then none else some (temp, s)
      else readVarintLoop bits (shift + 7) temp s

def readVarint (bits : Nat) : Reader Nat := readVarintLoop bits 0 0

theorem writeVarintLoop_of_lt {v : Nat} (h : v < 128) (k : Nat) : writeVarintLoop k v = [UInt8.ofNat v] := by
  cases k with
  | zero => rfl
  | succ k => rw [writeVarintLoop, if_neg (by omega)]

theorem writeVarintLoop_of_ge {v : Nat} (h : 128 ≤ v) (k : Nat) :
    writeVarintLoop (k + 1) v = UInt8.ofNat (v % 128 + 128) :: writeVarintLoop k (v / 128) := by
  rw [writeVarintLoop, if_pos h]

theorem writeVarintLoop_length_le : ∀ k v, (writeVarintLoop k v).length ≤ k + 1
  | 0, v => by simp [writeVarintLoop]
  | k + 1, v => by
    rw [writeVarintLoop]
    split
    · have := writeVarintLoop_length_le k (v / 128)
      simp only [List.length_cons]; omega
    · simp

/-- A `uint64_t` takes at most ten bytes. -/
theorem writeVarint_length_le (v : Nat) : (writeVarint v).length ≤ 10 := writeVarintLoop_length_le 9 v

/-- The payload bits land above the bits read so far, so the `|=` is a sum. -/
theorem or_shift {temp shift : Nat} (p : Nat) (h : temp < 2 ^ shift) : temp ||| p <<< shift = temp + p * 2 ^ shift := by
  rw [Nat.shiftLeft_eq, Nat.or_comm, Nat.mul_comm, ← Nat.two_pow_add_eq_or_of_lt h]
  omega

theorem temp_lt {temp shift p : Nat} (h : temp < 2 ^ shift) (hp : p < 128) :
    temp + p * 2 ^ shift < 2 ^ (shift + 7) := by
  have e : 2 ^ (shift + 7) = 128 * 2 ^ shift := by rw [Nat.pow_add]; omega
  have : p * 2 ^ shift ≤ 127 * 2 ^ shift := Nat.mul_le_mul_right _ (by omega)
  omega

theorem pow_split {bits shift : Nat} (h : shift + 7 ≤ bits) : 2 ^ (bits - shift) = 128 * 2 ^ (bits - (shift + 7)) := by
  rw [show bits - shift = 7 + (bits - (shift + 7)) by omega, Nat.pow_add]

/-- What the loop has read when it returns: the pieces of some `u`, in the form
`writeVarint` gives them, added in above `temp`. -/
theorem readVarintLoop_some {bits : Nat} (hb : 7 ≤ bits) :
    ∀ {s : Bytes} {shift temp v : Nat} {rest : Bytes}, temp < 2 ^ shift → shift ≤ bits →
      readVarintLoop bits shift temp s = some (v, rest) →
      ∃ u, v = temp + u * 2 ^ shift ∧ u < 2 ^ (bits - shift) ∧ (shift ≠ 0 → u ≠ 0) ∧
        ∀ k, u < 128 ^ (k + 1) → s = writeVarintLoop k u ++ rest
  | [], shift, temp, v, rest, _, _, h => by simp [readVarintLoop] at h
  | piece :: s, shift, temp, v, rest, ht, hs, h => by
    rw [readVarintLoop] at h
    split at h
    · cases h
    · rename_i hov
      have hov' : bits - 7 ≤ shift → piece.toNat < 2 ^ (bits - shift) := by
        intro hge
        by_contra hc
        exact hov ⟨hge, by omega⟩
      dsimp only at h
      have hlt := piece.toNat_lt
      rw [or_shift _ ht] at h
      split at h
      · rename_i hp
        split at h
        · cases h
        · rename_i hz
          simp only [Option.some.injEq, Prod.mk.injEq] at h
          obtain ⟨rfl, rfl⟩ := h
          rw [Nat.mod_eq_of_lt hp]
          refine ⟨piece.toNat, rfl, ?_, fun h0 e => hz ⟨e, h0⟩, fun k _ => ?_⟩
          · by_cases hge : bits - 7 ≤ shift
            · exact hov' hge
            · have := @pow_split bits shift (by omega)
              have := Nat.two_pow_pos (bits - (shift + 7))
              omega
          · rw [writeVarintLoop_of_lt hp]
            simp
      · rename_i hp
        -- a continuation piece never passes the overflow test in the last position
        have h7 : shift + 7 ≤ bits := by
          by_contra hc
          have h1 := hov' (by omega)
          have h2 : 2 ^ (bits - shift) ≤ 2 ^ 7 := Nat.pow_le_pow_right (by omega) (by omega)
          omega
        obtain ⟨u, rfl, hu, hnz, hw⟩ :=
          readVarintLoop_some hb (temp_lt ht (Nat.mod_lt _ (by omega))) h7 h
        have hu0 := hnz (by omega)
        refine ⟨piece.toNat % 128 + 128 * u, ?_, ?_, fun _ => by omega, fun k hk => ?_⟩
        · rw [Nat.pow_add]; ring
        · rw [pow_split h7]; omega
        · cases k with
          | zero => omega
          | succ k =>
            have e1 : (piece.toNat % 128 + 128 * u) % 128 + 128 = piece.toNat := by omega
            have e2 : (piece.toNat % 128 + 128 * u) / 128 = u := by omega
            rw [writeVarintLoop_of_ge (by omega), e1, e2, hw k (by rw [Nat.pow_succ] at hk; omega)]
            simp

theorem readVarintLoop_write {bits : Nat} (rest : Bytes) :
    ∀ {k shift temp u : Nat}, temp < 2 ^ shift → shift ≤ bits → u < 2 ^ (bits - shift) →
      u < 128 ^ (k + 1) → (shift ≠ 0 → u ≠ 0) →
      readVarintLoop bits shift temp (writeVarintLoop k u ++ rest) = some (temp + u * 2 ^ shift, rest) := by
  intro k
  induction k with
  | zero =>
    intro shift temp u ht hs hu hk hnz
    have hu128 : u < 128 := by simpa using hk
    rw [writeVarintLoop_of_lt hu128, List.singleton_append, readVarintLoop]
    have hn : (UInt8.ofNat u).toNat = u := by simp; omega
    simp only [hn]
    rw [if_neg (by omega), if_pos hu128, if_neg (fun h => hnz h.2 h.1), Nat.mod_eq_of_lt hu128, or_shift _ ht]
  | succ k ih =>
    intro shift temp u ht hs hu hk hnz
    by_cases h : u < 128
    · rw [writeVarintLoop_of_lt h, ← writeVarintLoop_of_lt h k]
      exact ih ht hs hu (by
        have := Nat.pow_le_pow_right (show 0 < 128 by omega) (show 1 ≤ k + 1 by omega)
        omega) hnz
    · rw [writeVarintLoop_of_ge (by omega), List.cons_append, readVarintLoop]
      have hn : (UInt8.ofNat (u % 128 + 128)).toNat = u % 128 + 128 := by simp; omega
      have h7 : shift + 7 < bits := by
        by_contra hc
        have : 2 ^ (bits - shift) ≤ 2 ^ 7 := Nat.pow_le_pow_right (by omega) (by omega)
        omega
      simp only [hn]
      rw [if_neg (by omega), if_neg (by omega), Nat.add_mod_right, Nat.mod_mod, or_shift _ ht,
        ih (temp_lt ht (Nat.mod_lt _ (by omega))) (by omega)
          (by rw [pow_split (by omega)] at hu; omega) (by rw [Nat.pow_succ] at hk; omega)
          (by omega)]
      have e : u = u % 128 + 128 * (u / 128) := (Nat.mod_add_div u 128).symm
      congr 2
      rw [Nat.pow_add]
      calc temp + u % 128 * 2 ^ shift + u / 128 * (2 ^ shift * 2 ^ 7)
          = temp + (u % 128 + 128 * (u / 128)) * 2 ^ shift := by ring
        _ = temp + u * 2 ^ shift := by rw [← e]

theorem readVarint_lt {bits : Nat} (hb : 7 ≤ bits) {s rest : Bytes} {v : Nat} (h : readVarint bits s = some (v, rest)) :
    v < 2 ^ bits := by
  obtain ⟨u, rfl, hu, -, -⟩ := readVarintLoop_some hb (by simp) (Nat.zero_le _) h
  simpa using hu

theorem two_pow_le_pieces {bits : Nat} (hb : bits ≤ 64) : 2 ^ bits ≤ 128 ^ (9 + 1) :=
  Nat.le_trans (Nat.pow_le_pow_right (by omega) hb) (by norm_num)

/-- An accepted varint is the shortest encoding of its value. -/
theorem readVarint_canonical {bits : Nat} (hb : 7 ≤ bits) (hb' : bits ≤ 64) :
    Canonical (readVarint bits) writeVarint := by
  intro s v rest h
  obtain ⟨u, rfl, hu, -, hw⟩ := readVarintLoop_some hb (by simp) (Nat.zero_le _) h
  simp only [Nat.sub_zero, Nat.pow_zero, Nat.mul_one, Nat.zero_add] at hu ⊢
  exact hw 9 (Nat.lt_of_lt_of_le hu (two_pow_le_pieces hb'))

theorem readVarint_inverts {bits : Nat} (hb' : bits ≤ 64) : Inverts (· < 2 ^ bits) (readVarint bits) writeVarint := by
  intro v hv rest
  have := @readVarintLoop_write bits rest 9 0 0 v (by simp)
    (Nat.zero_le _) (by simpa using hv) (Nat.lt_of_lt_of_le hv (two_pow_le_pieces hb')) (by simp)
  simpa [readVarint, writeVarint] using this

/-! ## The overloads the serializers use -/

def readVarint8 : Reader UInt8 := fun s => (readVarint 8 s).map fun x => (UInt8.ofNat x.1, x.2)
def readVarint32 : Reader UInt32 := fun s => (readVarint 32 s).map fun x => (UInt32.ofNat x.1, x.2)
def readVarint64 : Reader UInt64 := fun s => (readVarint 64 s).map fun x => (UInt64.ofNat x.1, x.2)

def writeVarint8 (v : UInt8) : Bytes := writeVarint v.toNat
def writeVarint32 (v : UInt32) : Bytes := writeVarint v.toNat
def writeVarint64 (v : UInt64) : Bytes := writeVarint v.toNat

/-- One argument for the three widths: the machine type is `Nat` below `2 ^ bits`. -/
theorem varint_canonical_of {α : Type} {bits : Nat} (hb : 7 ≤ bits) (hb' : bits ≤ 64)
    (ofNat : Nat → α) (toNat : α → Nat) (h : ∀ n, n < 2 ^ bits → toNat (ofNat n) = n) :
    Canonical (fun s => (readVarint bits s).map fun x => (ofNat x.1, x.2)) (fun a => writeVarint (toNat a)) := by
  intro s a rest e
  simp only [Option.map_eq_some_iff, Prod.mk.injEq] at e
  obtain ⟨⟨v, r⟩, hv, rfl, rfl⟩ := e
  simp only [h v (readVarint_lt hb hv)]
  exact readVarint_canonical hb hb' hv

theorem varint_inverts_of {α : Type} {bits : Nat} (hb' : bits ≤ 64)
    (ofNat : Nat → α) (toNat : α → Nat) (h : ∀ a, ofNat (toNat a) = a) (hlt : ∀ a, toNat a < 2 ^ bits) :
    Inverts (fun _ => True) (fun s => (readVarint bits s).map fun x => (ofNat x.1, x.2))
      (fun a => writeVarint (toNat a)) := by
  intro a _ rest
  simp only [readVarint_inverts hb' (hlt a) rest, Option.map_some, h]

theorem readVarint8_canonical : Canonical readVarint8 writeVarint8 :=
  varint_canonical_of (by omega) (by omega) UInt8.ofNat UInt8.toNat fun n h => by simp; omega

theorem readVarint32_canonical : Canonical readVarint32 writeVarint32 :=
  varint_canonical_of (by omega) (by omega) UInt32.ofNat UInt32.toNat fun n h => by simp; omega

theorem readVarint64_canonical : Canonical readVarint64 writeVarint64 :=
  varint_canonical_of (by omega) (by omega) UInt64.ofNat UInt64.toNat fun n h => by simp; omega

theorem readVarint8_inverts : Inverts (fun _ => True) readVarint8 writeVarint8 :=
  varint_inverts_of (by omega) UInt8.ofNat UInt8.toNat (by simp) UInt8.toNat_lt

theorem readVarint32_inverts : Inverts (fun _ => True) readVarint32 writeVarint32 :=
  varint_inverts_of (by omega) UInt32.ofNat UInt32.toNat (by simp) UInt32.toNat_lt

theorem readVarint64_inverts : Inverts (fun _ => True) readVarint64 writeVarint64 :=
  varint_inverts_of (by omega) UInt64.ofNat UInt64.toNat (by simp) UInt64.toNat_lt

end Discrete.L1
