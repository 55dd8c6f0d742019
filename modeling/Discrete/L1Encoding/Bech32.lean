import Discrete.Core.Text
import Discrete.Core.LinearRegister

/-!
# Bech32m (`PqBech32.cpp`)

A string is a human-readable part, the separator `1`, and symbols of five bits: the
payload regrouped from bytes, then six symbols that bring the remainder `polymod` of
everything before them to a constant.

The remainder is a linear register over words with exclusive or (`polymod_eq_feed`);
reading and writing symbols is a regrouping of digits (`convertBits_pad`,
`convertBits_exact`).

* `bech32m_codec`: the decoder reads back what the encoder writes, accepts nothing
  else, and rejects an accepted string in which one symbol is changed.
-/
namespace Discrete.L1
open Nat List Codec

def charset : Bytes := ascii "qpzry9x8gf2tvdw0s3jn54khce6mua7l"
def separatorChar : UInt8 := 49  -- '1'
def bech32mConst : UInt32 := 0x2bc830a3
def generators : List UInt32 := [0x3b6a57b2, 0x26508e6d, 0x1ea119fa, 0x3d4233dd, 0x2a1462b3]

/-- The loop over the bits of `top`. -/
def addGenerators (top : UInt8) (checksum : UInt32) : UInt32 :=
  generators.zipIdx.foldl
    (fun checksum g => if (top >>> UInt8.ofNat g.2) &&& 1 = 1 then checksum ^^^ g.1 else checksum) checksum

def polymodStep (checksum : UInt32) (value : UInt8) : UInt32 :=
  addGenerators (checksum >>> 25).toUInt8 (((checksum &&& 0x1ffffff) <<< 5) ^^^ value.toUInt32)

/-- mirrors PqBech32.cpp:16-28 -/
def polymod (values : Bytes) : UInt32 := values.foldl polymodStep 1

/-- mirrors PqBech32.cpp:30-37 -/
def expandHrp (hrp : Bytes) : Bytes := hrp.map (fun c : UInt8 => c >>> 5) ++ 0 :: hrp.map (fun c : UInt8 => c &&& 31)

/-- The inner loop of `convertBits`; `fuel` bounds the turns. -/
def drainBits (toBits accumulator : Nat) : (fuel bits : Nat) → Bytes → Nat × Bytes
  | 0, bits, out => (bits, out)
  | fuel + 1, bits, out =>
    if bits ≥ toBits then
      drainBits toBits accumulator fuel (bits - toBits)
        (out ++ [UInt8.ofNat ((accumulator >>> (bits - toBits)) &&& (2 ^ toBits - 1))])
    else (bits, out)

/-- The outer loop. The accumulator is masked every turn and stays far below 32 bits. -/
def convertLoop (fromBits toBits : Nat) : (accumulator bits : Nat) → (out input : Bytes) → Option (Nat × Nat × Bytes)
  | accumulator, bits, out, [] => some (accumulator, bits, out)
  | accumulator, bits, out, value :: input =>
    if value.toNat >>> fromBits ≠ 0 then none
    else
      let accumulator := ((accumulator <<< fromBits) ||| value.toNat) &&& (2 ^ (fromBits + toBits - 1) - 1)
      let r := drainBits toBits accumulator (bits + fromBits) (bits + fromBits) out
      convertLoop fromBits toBits accumulator r.1 r.2 input

/-- mirrors PqBech32.cpp:39-61 -/
def convertBits (input : Bytes) (fromBits toBits : Nat) (pad : Bool) : Option Bytes :=
  match convertLoop fromBits toBits 0 0 [] input with
  | none => none
  | some (accumulator, bits, out) =>
    let last := (accumulator <<< (toBits - bits)) &&& (2 ^ toBits - 1)
    if pad then some (if bits ≠ 0 then out ++ [UInt8.ofNat last] else out)
    else if bits ≥ fromBits ∨ last ≠ 0 then none
    else some out

def charOf (value : UInt8) : UInt8 := charset.getD value.toNat 0

/-- `strchr` in the alphabet; the terminator is not a symbol. -/
def symbolOf (c : UInt8) : Option UInt8 := (charset.idxOf? c).map UInt8.ofNat

def checksumSymbols (checksum : UInt32) : Bytes :=
  (List.range 6).map fun i => ((checksum >>> UInt32.ofNat (5 * (5 - i))) &&& 31).toUInt8

/-- The encoder after its test of `hrp`. -/
def encodeSymbols (hrp payload : Bytes) : Bytes :=
  match convertBits payload 8 5 true with
  | none => []
  | some data =>
    let checksum := polymod (expandHrp hrp ++ data ++ List.replicate 6 0) ^^^ bech32mConst
    hrp ++ separatorChar :: (data ++ checksumSymbols checksum).map charOf

/-- mirrors PqBech32.cpp:65-85 -/
def encodeBech32m (hrp payload : Bytes) : Bytes := if hrp = [] then [] else encodeSymbols hrp payload

/-- mirrors PqBech32.cpp:87-112 -/
def decodeBech32m (encoded expectedHrp : Bytes) : Option Bytes :=
  match rfind separatorChar encoded with
  | none => none
  | some separator =>
    if separator = 0 ∨ separator + 7 > encoded.length ∨ encoded.take separator ≠ expectedHrp then none
    else
      match (encoded.drop (separator + 1)).mapM symbolOf with
      | none => none
      | some data =>
        if polymod (expandHrp expectedHrp ++ data) ≠ bech32mConst then none
        else convertBits (data.take (data.length - 6)) 5 8 false

/-! ## The remainder -/

/-- What the five bits above the low 25 add. -/
def feedback (top : BitVec 5) : BitVec 32 := (addGenerators (UInt8.ofBitVec (top.setWidth 8)) 0).toBitVec

theorem feedback_xor : ∀ a b : BitVec 5, feedback (a ^^^ b) = feedback a ^^^ feedback b := by decide +kernel

theorem feedback_lt : ∀ a : BitVec 5, (feedback a).toNat < 2 ^ 30 := by decide

/-- The lowest symbol of the generator is invertible. -/
theorem feedback_low : ∀ a : BitVec 5, (feedback a).setWidth 5 = 0#5 → a = 0#5 := by decide

/-- One turn of the register on the state alone. -/
def shift (c : BitVec 32) : BitVec 32 := ((c &&& 0x1ffffff#32) <<< 5) ^^^ feedback (c.extractLsb' 25 5)

theorem shift_xor (a b : BitVec 32) : shift (a ^^^ b) = shift a ^^^ shift b := by
  have hand : (a ^^^ b) &&& 0x1ffffff#32 = (a &&& 0x1ffffff#32) ^^^ (b &&& 0x1ffffff#32) := by
    ext i
    simp only [BitVec.getElem_and, BitVec.getElem_xor]
    cases a[i] <;> cases b[i] <;> simp
  rw [shift, shift, shift, hand, BitVec.shiftLeft_xor_distrib, BitVec.extractLsb'_xor, feedback_xor]
  ac_rfl

/-- The register of `polymod`. -/
def register : XorWord 32 →+ XorWord 32 where
  toFun c := ⟨shift c.bits⟩
  map_zero' := XorWord.ext (show shift 0#32 = 0#32 by decide +kernel)
  map_add' a b := XorWord.ext (shift_xor a.bits b.bits)

theorem addGenerators_xor (top : UInt8) (a b : UInt32) : addGenerators top (a ^^^ b) = addGenerators top a ^^^ b := by
  unfold addGenerators
  generalize generators.zipIdx = l
  induction l generalizing a with
  | nil => rfl
  | cons g l ih =>
    rw [foldl_cons, foldl_cons]
    split
    · rw [← ih]
      congr 1
      ac_rfl
    · exact ih a

/-- Only five bits of `top` are read. -/
theorem addGenerators_low : ∀ i : Fin 256,
    addGenerators (UInt8.ofNat i) 0 = addGenerators (UInt8.ofNat (i % 32)) 0 := by decide +kernel

theorem polymodStep_eq (c : UInt32) (v : UInt8) :
    (polymodStep c v).toBitVec = shift c.toBitVec ^^^ v.toUInt32.toBitVec := by
  have htop : addGenerators (c >>> 25).toUInt8 0 =
      addGenerators (UInt8.ofBitVec ((c.toBitVec.extractLsb' 25 5).setWidth 8)) 0 := by
    have hlow := addGenerators_low ⟨(c >>> 25).toUInt8.toNat, UInt8.toNat_lt _⟩
    rw [UInt8.ofNat_toNat] at hlow
    rw [hlow]
    congr 1
    apply UInt8.toNat_inj.mp
    simp [shiftRight_eq_div_pow]
  have hzero : ∀ top x, addGenerators top x = x ^^^ addGenerators top 0 := fun top x => by
    rw [← UInt32.zero_xor (a := x), addGenerators_xor, UInt32.zero_xor, UInt32.xor_comm]
  have hshift : ((c &&& 0x1ffffff) <<< 5).toBitVec = (c.toBitVec &&& 0x1ffffff#32) <<< 5 := rfl
  rw [polymodStep, hzero, htop, UInt32.toBitVec_xor, UInt32.toBitVec_xor, hshift, shift, feedback]
  ac_rfl

/-- A symbol as a word of the register. -/
def symbolWord (v : UInt8) : XorWord 32 := ⟨v.toUInt32.toBitVec⟩

theorem polymod_eq_feed (values : Bytes) :
    ⟨(polymod values).toBitVec⟩ = feed register ⟨1#32⟩ (values.map symbolWord) := by
  have hloop : ∀ (l : Bytes) (c : UInt32), ⟨(l.foldl polymodStep c).toBitVec⟩ =
      feed register ⟨c.toBitVec⟩ (l.map symbolWord) := by
    intro l
    induction l with
    | nil => exact fun _ => rfl
    | cons v l ih =>
      intro c
      rw [foldl_cons, ih, polymodStep_eq]
      rfl
  exact hloop values 1

theorem shift_lt (c : BitVec 32) : (shift c).toNat < 2 ^ 30 := by
  have hlow : (c &&& 0x1ffffff#32).toNat < 2 ^ 25 := by
    rw [BitVec.toNat_and]
    exact and_lt_two_pow _ (by decide)
  rw [shift, BitVec.toNat_xor, BitVec.toNat_shiftLeft, shiftLeft_eq]
  exact xor_lt_two_pow (by omega) (feedback_lt _)

/-- A state without the top symbol moves up by one symbol. -/
theorem shift_of_lt {c : BitVec 32} (hc : c.toNat < 2 ^ 25) : (shift c).toNat = c.toNat * 32 := by
  have htop : c.extractLsb' 25 5 = 0#5 := by
    apply BitVec.eq_of_toNat_eq
    rw [BitVec.extractLsb'_toNat, shiftRight_eq_div_pow, div_eq_of_lt hc]
    rfl
  have hlow : c &&& 0x1ffffff#32 = c := by
    apply BitVec.eq_of_toNat_eq
    rw [BitVec.toNat_and, show (0x1ffffff#32).toNat = 2 ^ 25 - 1 from rfl, and_two_pow_sub_one_eq_mod,
      mod_eq_of_lt hc]
  have hzero : feedback 0#5 = 0#32 := by decide
  rw [shift, htop, hzero, hlow, BitVec.xor_zero, BitVec.toNat_shiftLeft, shiftLeft_eq, mod_eq_of_lt (by omega)]

theorem shift_eq_zero {c : BitVec 32} (hc : c.toNat < 2 ^ 30) (h : shift c = 0#32) : c = 0#32 := by
  have htop : c.extractLsb' 25 5 = 0#5 := by
    apply feedback_low
    have hset := congrArg (BitVec.setWidth 5) h
    rw [shift, BitVec.setWidth_xor] at hset
    have hup : ((c &&& 0x1ffffff#32) <<< 5).setWidth 5 = 0#5 := by
      apply BitVec.eq_of_toNat_eq
      rw [BitVec.toNat_setWidth, BitVec.toNat_shiftLeft, shiftLeft_eq]
      simp
    rw [hup, BitVec.zero_xor] at hset
    exact hset
  have hsmall : c.toNat < 2 ^ 25 := by
    have hnat := congrArg BitVec.toNat htop
    rw [BitVec.extractLsb'_toNat, shiftRight_eq_div_pow] at hnat
    simp at hnat
    omega
  have hmul := shift_of_lt hsmall
  rw [h] at hmul
  apply BitVec.eq_of_toNat_eq
  simp at hmul ⊢
  omega

theorem xor_of_lt (a : Nat) {b : Nat} (hb : b < 32) : a * 32 ^^^ b = a * 32 + b := by
  have hb : b < 2 ^ 5 := hb
  rw [show a * 32 = 2 ^ 5 * a from Nat.mul_comm a 32]
  apply eq_of_testBit_eq
  intro i
  rw [testBit_xor, testBit_two_pow_mul_add _ hb, testBit_two_pow_mul]
  by_cases hi : i < 5
  · simp [hi, Nat.not_le.mpr hi]
  · simp [hi, testBit_lt_two_pow (Nat.lt_of_lt_of_le hb (Nat.pow_le_pow_right (by decide) (Nat.not_lt.mp hi))),
      Nat.not_lt.mp hi]

def nats (l : Bytes) : List Nat := l.map UInt8.toNat

/-- Six symbols fill the empty register. -/
theorem feed_symbols {ds : Bytes} (hlen : ds.length ≤ 6) (hds : ∀ d ∈ ds, d.toNat < 32) :
    (feed register 0 (ds.map symbolWord)).bits.toNat = beValue 32 (nats ds) := by
  induction ds using List.reverseRecOn with
  | nil => rfl
  | append_singleton ds d ih =>
    have hinit : ∀ d ∈ ds, d.toNat < 32 := fun d hd => hds d (mem_append_left _ hd)
    have hd : d.toNat < 32 := hds d (by simp)
    rw [length_append, length_singleton] at hlen
    have ih := ih (by omega) hinit
    have hlt : beValue 32 (nats ds) < 2 ^ 25 := by
      have := beValue_lt (b := 32) (by decide) (l := nats ds) (by simpa [nats] using hinit)
      have hpow : 32 ^ (nats ds).length ≤ 32 ^ 5 := Nat.pow_le_pow_right (by decide) (by simp [nats]; omega)
      omega
    have hstep : (feed register 0 ((ds ++ [d]).map symbolWord)).bits =
        shift (feed register 0 (ds.map symbolWord)).bits ^^^ d.toUInt32.toBitVec := by
      rw [map_append, feed_append]
      rfl
    rw [hstep, BitVec.toNat_xor, shift_of_lt (by rw [ih]; exact hlt), ih]
    have hword : d.toUInt32.toBitVec.toNat = d.toNat := by simp
    have hnats : nats (ds ++ [d]) = nats ds ++ [d.toNat] := by simp [nats]
    rw [hword, xor_of_lt _ hd, hnats, beValue_snoc]

theorem polymod_lt (values : Bytes) : (polymod values).toNat < 2 ^ 30 := by
  induction values using List.reverseRecOn with
  | nil => decide
  | append_singleton values v ih =>
    have hstep : polymod (values ++ [v]) = polymodStep (polymod values) v := by
      rw [polymod, foldl_append]
      rfl
    rw [hstep, ← UInt32.toNat_toBitVec, polymodStep_eq, BitVec.toNat_xor]
    refine xor_lt_two_pow (shift_lt _) ?_
    have := v.toNat_lt
    simp
    omega

/-- Symbols appended to `values` are added to the remainder of `values` and zeros. -/
theorem polymod_append (values ds : Bytes) :
    (polymod (values ++ ds)).toBitVec =
      (feed register 0 (ds.map symbolWord)).bits ^^^ (polymod (values ++ List.replicate ds.length 0)).toBitVec := by
  have hzero : (List.replicate ds.length (0 : UInt8)).map symbolWord = List.replicate ds.length 0 := by
    rw [map_replicate]
    rfl
  have hleft := polymod_eq_feed (values ++ ds)
  have hright := polymod_eq_feed (values ++ List.replicate ds.length 0)
  rw [map_append, feed_append, feed_eq, length_map] at hleft
  rw [map_append, feed_append, hzero, feed_zeros] at hright
  rw [← hright] at hleft
  exact congrArg XorWord.bits hleft

theorem beValue_checksumSymbols {checksum : UInt32} (h : checksum.toNat < 2 ^ 30) :
    beValue 32 (nats (checksumSymbols checksum)) = checksum.toNat := by
  have hdigit : ∀ s : Nat, s < 32 →
      (((checksum >>> UInt32.ofNat s) &&& 31).toUInt8).toNat = checksum.toNat / 2 ^ s % 32 := by
    intro s hs
    rw [UInt32.toNat_toUInt8, UInt32.toNat_and, UInt32.toNat_shiftRight, shiftRight_eq_div_pow,
      show (31 : UInt32).toNat = 2 ^ 5 - 1 from rfl, and_two_pow_sub_one_eq_mod, UInt32.toNat_ofNat',
      mod_eq_of_lt (show s < 2 ^ 32 by omega), mod_eq_of_lt hs]
    omega
  have hnats : nats (checksumSymbols checksum) =
      [checksum.toNat / 2 ^ 25 % 32, checksum.toNat / 2 ^ 20 % 32, checksum.toNat / 2 ^ 15 % 32,
        checksum.toNat / 2 ^ 10 % 32, checksum.toNat / 2 ^ 5 % 32, checksum.toNat / 2 ^ 0 % 32] := by
    rw [← hdigit 25 (by decide), ← hdigit 20 (by decide), ← hdigit 15 (by decide), ← hdigit 10 (by decide),
      ← hdigit 5 (by decide), ← hdigit 0 (by decide)]
    rfl
  rw [hnats]
  simp only [beValue, reverse_cons, reverse_nil, nil_append, cons_append, ofDigits_cons, ofDigits_nil]
  omega

theorem checksumSymbols_lt (checksum : UInt32) : ∀ d ∈ checksumSymbols checksum, d.toNat < 32 := by
  intro d hd
  obtain ⟨i, -, rfl⟩ := List.mem_map.mp hd
  rw [UInt32.toNat_toUInt8, UInt32.toNat_and, show (31 : UInt32).toNat = 2 ^ 5 - 1 from rfl,
    and_two_pow_sub_one_eq_mod]
  omega

/-- The six symbols of the encoder are the only ones that the decoder accepts. -/
theorem checksum_iff (values : Bytes) {ds : Bytes} (hlen : ds.length = 6) (hds : ∀ d ∈ ds, d.toNat < 32) :
    polymod (values ++ ds) = bech32mConst ↔
      ds = checksumSymbols (polymod (values ++ List.replicate 6 0) ^^^ bech32mConst) := by
  have happend := polymod_append values ds
  rw [hlen] at happend
  have hfeed := feed_symbols (Nat.le_of_eq hlen) hds
  have hlt : (polymod (values ++ List.replicate 6 0) ^^^ bech32mConst).toNat < 2 ^ 30 := by
    rw [UInt32.toNat_xor]
    exact xor_lt_two_pow (polymod_lt _) (by decide)
  constructor
  · intro h
    have hword : (feed register 0 (ds.map symbolWord)).bits =
        (polymod (values ++ List.replicate 6 0) ^^^ bech32mConst).toBitVec := by
      rw [h] at happend
      rw [UInt32.toBitVec_xor, happend, BitVec.xor_comm, BitVec.xor_assoc, BitVec.xor_self, BitVec.xor_zero]
    have hvalue : beValue 32 (nats ds) =
        beValue 32 (nats (checksumSymbols (polymod (values ++ List.replicate 6 0) ^^^ bech32mConst))) := by
      rw [← hfeed, hword, UInt32.toNat_toBitVec, beValue_checksumSymbols hlt]
    have hsame := beValue_inj (by decide) (by simp [nats, hlen, checksumSymbols]) (by simpa [nats] using hds)
      (by simpa [nats] using checksumSymbols_lt _) hvalue
    exact map_injective_iff.mpr (fun _ _ => UInt8.toNat_inj.mp) hsame
  · intro h
    have hword : (feed register 0 (ds.map symbolWord)).bits =
        (polymod (values ++ List.replicate 6 0) ^^^ bech32mConst).toBitVec := by
      apply BitVec.eq_of_toNat_eq
      rw [hfeed, h, beValue_checksumSymbols hlt, UInt32.toNat_toBitVec]
    apply UInt32.toBitVec_inj.mp
    rw [happend, hword, UInt32.toBitVec_xor, BitVec.xor_comm, ← BitVec.xor_assoc, BitVec.xor_self, BitVec.zero_xor]

/-- One changed symbol changes the remainder. -/
theorem polymod_change (us vs : Bytes) {v w : UInt8} (hv : v.toNat < 32) (hw : w.toNat < 32) (hne : v ≠ w) :
    polymod (us ++ v :: vs) ≠ polymod (us ++ w :: vs) := by
  intro h
  have hfeed := polymod_eq_feed (us ++ v :: vs)
  rw [h, polymod_eq_feed, map_append, map_append, map_cons, map_cons] at hfeed
  refine feed_change_ne (T := register) (P := fun x => x.bits.toNat < 2 ^ 30) (fun x _ => shift_lt x.bits)
    (fun x hx h0 => XorWord.ext (shift_eq_zero hx (congrArg XorWord.bits h0))) _ _ _ ?_ ?_ hfeed.symm
  · rw [XorWord.bits_sub, BitVec.toNat_xor, symbolWord, symbolWord]
    refine xor_lt_two_pow ?_ ?_
    · simp
      omega
    · simp
      omega
  · intro e
    apply hne
    have hnat := congrArg (fun x => x.bits.toNat) e
    apply UInt8.toNat_inj.mp
    simpa [symbolWord] using hnat

/-! ## Bytes and symbols -/

section
variable {fromBits toBits : Nat}

theorem nats_append (a b : Bytes) : nats (a ++ b) = nats a ++ nats b := map_append

theorem nats_injective : Function.Injective nats := map_injective_iff.mpr fun _ _ => UInt8.toNat_inj.mp

/-- The low `bits` bits of the accumulator are the ones still to be written. -/
theorem drainBits_spec (hto : 0 < toBits) (hto8 : toBits ≤ 8) {inp : List Nat} {accumulator : Nat} :
    ∀ (fuel bits : Nat) (out : Bytes), bits ≤ fuel →
      Regroups fromBits toBits inp (nats out) (accumulator % 2 ^ bits) bits →
      Regroups fromBits toBits inp (nats (drainBits toBits accumulator fuel bits out).2)
          (accumulator % 2 ^ (drainBits toBits accumulator fuel bits out).1)
          (drainBits toBits accumulator fuel bits out).1 ∧ (drainBits toBits accumulator fuel bits out).1 < toBits
  | 0, bits, out, hfuel, h => by
    obtain rfl : bits = 0 := by omega
    exact ⟨h, hto⟩
  | fuel + 1, bits, out, hfuel, h => by
    rw [drainBits]
    by_cases hbits : bits ≥ toBits
    · rw [if_pos hbits]
      refine drainBits_spec hto hto8 fuel (bits - toBits) _ (by omega) ?_
      have hemit := h.emit hbits
      have hsplit : 2 ^ bits = 2 ^ (bits - toBits) * 2 ^ toBits := by rw [← Nat.pow_add, Nat.sub_add_cancel hbits]
      have hdigit : accumulator % 2 ^ bits / 2 ^ (bits - toBits) =
          (accumulator >>> (bits - toBits)) &&& (2 ^ toBits - 1) := by
        rw [hsplit, mod_mul_right_div_self, shiftRight_eq_div_pow, and_two_pow_sub_one_eq_mod]
      have hrest : accumulator % 2 ^ bits % 2 ^ (bits - toBits) = accumulator % 2 ^ (bits - toBits) :=
        mod_mod_of_dvd _ (Nat.pow_dvd_pow 2 (sub_le bits toBits))
      rw [hdigit, hrest] at hemit
      have hbyte : ((accumulator >>> (bits - toBits)) &&& (2 ^ toBits - 1)) < 256 := by
        have hpow : 2 ^ toBits ≤ 2 ^ 8 := Nat.pow_le_pow_right (by decide) hto8
        have hmod := mod_lt (accumulator >>> (bits - toBits)) (Nat.two_pow_pos toBits)
        rw [and_two_pow_sub_one_eq_mod]
        omega
      have hnats : nats (out ++ [UInt8.ofNat ((accumulator >>> (bits - toBits)) &&& (2 ^ toBits - 1))]) =
          nats out ++ [(accumulator >>> (bits - toBits)) &&& (2 ^ toBits - 1)] := by
        rw [nats_append, nats, nats, map_singleton, UInt8.toNat_ofNat', mod_eq_of_lt hbyte]
      rw [hnats]
      exact hemit
    · rw [if_neg hbits]
      exact ⟨h, by omega⟩

theorem convertLoop_spec (hto : 0 < toBits) (hto8 : toBits ≤ 8) :
    ∀ (input : Bytes) {inp : List Nat} {accumulator bits : Nat} {out : Bytes},
      (∀ v ∈ input, v.toNat < 2 ^ fromBits) → bits < toBits →
      Regroups fromBits toBits inp (nats out) (accumulator % 2 ^ bits) bits → ∃ accumulator' bits' out',
        convertLoop fromBits toBits accumulator bits out input = some (accumulator', bits', out') ∧ bits' < toBits ∧
        Regroups fromBits toBits (inp ++ nats input) (nats out') (accumulator' % 2 ^ bits') bits'
  | [], inp, accumulator, bits, out, _, hbits, h =>
    ⟨accumulator, bits, out, rfl, hbits, by rw [nats, map_nil, append_nil]; exact h⟩
  | v :: input, inp, accumulator, bits, out, hinput, hbits, h => by
    have hv : v.toNat < 2 ^ fromBits := hinput v mem_cons_self
    have hfits : ¬ v.toNat >>> fromBits ≠ 0 := by
      rw [shiftRight_eq_div_pow, div_eq_of_lt hv]
      exact fun hne => hne rfl
    -- the mask keeps every bit that is still to be written
    have hacc : (((accumulator <<< fromBits) ||| v.toNat) &&& (2 ^ (fromBits + toBits - 1) - 1)) %
        2 ^ (bits + fromBits) = accumulator % 2 ^ bits * 2 ^ fromBits + v.toNat := by
      rw [and_two_pow_sub_one_eq_mod, ← shiftLeft_add_eq_or_of_lt hv, shiftLeft_eq,
        mod_mod_of_dvd _ (Nat.pow_dvd_pow 2 (by omega)), Nat.pow_add, add_mod, mul_mod_mul_right]
      have hrest : accumulator % 2 ^ bits < 2 ^ bits := mod_lt _ (Nat.two_pow_pos _)
      have hsum : accumulator % 2 ^ bits * 2 ^ fromBits + v.toNat < 2 ^ bits * 2 ^ fromBits := by
        have hstep : (accumulator % 2 ^ bits + 1) * 2 ^ fromBits ≤ 2 ^ bits * 2 ^ fromBits :=
          Nat.mul_le_mul_right _ hrest
        rw [Nat.add_mul, Nat.one_mul] at hstep
        omega
      have hvlt : v.toNat < 2 ^ bits * 2 ^ fromBits := by omega
      rw [mod_eq_of_lt hvlt, mod_eq_of_lt hsum]
    have hfeed := h.feed hv
    rw [← hacc] at hfeed
    obtain ⟨hdrain, hlt⟩ := drainBits_spec hto hto8 (bits + fromBits) (bits + fromBits) out (Nat.le_refl _) hfeed
    rw [convertLoop, if_neg hfits]
    obtain ⟨accumulator', bits', out', hrun, hbits', hreg⟩ := convertLoop_spec hto hto8 input
      (fun w hw => hinput w (mem_cons_of_mem v hw)) hlt hdrain
    refine ⟨accumulator', bits', out', hrun, hbits', ?_⟩
    rw [append_assoc] at hreg
    exact hreg

theorem convertLoop_all (hto : 0 < toBits) (hto8 : toBits ≤ 8) {input : Bytes} (h : ∀ v ∈ input, v.toNat < 2 ^ fromBits) :
    ∃ accumulator bits out, convertLoop fromBits toBits 0 0 [] input = some (accumulator, bits, out) ∧ bits < toBits ∧
      Regroups fromBits toBits (nats input) (nats out) (accumulator % 2 ^ bits) bits := by
  have hnil : Regroups fromBits toBits [] (nats []) (0 % 2 ^ 0) 0 := Regroups.nil fromBits toBits
  exact convertLoop_spec hto hto8 input h hto hnil

theorem convertLoop_input : ∀ {input : Bytes} {accumulator bits : Nat} {out : Bytes} {r : Nat × Nat × Bytes},
    convertLoop fromBits toBits accumulator bits out input = some r → ∀ v ∈ input, v.toNat < 2 ^ fromBits
  | [], _, _, _, _, _ => by simp
  | v :: input, accumulator, bits, out, r, h => by
    rw [convertLoop] at h
    split at h
    · cases h
    · rename_i hv
      have hv : v.toNat < 2 ^ fromBits := by
        rw [shiftRight_eq_div_pow, not_not] at hv
        exact (div_eq_zero_iff_lt (Nat.two_pow_pos _)).mp hv
      intro w hw
      rcases mem_cons.mp hw with rfl | hw
      · exact hv
      · exact convertLoop_input h w hw

/-- The bits left over, moved to the top of a digit. -/
theorem last_eq {accumulator bits : Nat} (h : bits < toBits) :
    (accumulator <<< (toBits - bits)) &&& (2 ^ toBits - 1) = accumulator % 2 ^ bits * 2 ^ (toBits - bits) := by
  have hsplit : 2 ^ toBits = 2 ^ bits * 2 ^ (toBits - bits) := by rw [← Nat.pow_add, Nat.add_sub_cancel' h.le]
  rw [and_two_pow_sub_one_eq_mod, shiftLeft_eq, hsplit, mul_mod_mul_right]

end

/-- `data` is the bits of `payload` and `pad` zeros, in symbols. -/
structure Padded (payload data : Bytes) (pad : Nat) : Prop where
  pad_lt : pad < 5
  length : data.length * 5 = payload.length * 8 + pad
  value : beValue 32 (nats data) = beValue 256 (nats payload) * 2 ^ pad
  symbols : ∀ d ∈ data, d.toNat < 32

theorem convertBits_pad (payload : Bytes) :
    ∃ data pad, convertBits payload 8 5 true = some data ∧ Padded payload data pad := by
  obtain ⟨accumulator, bits, out, hrun, hbits, hreg⟩ := convertLoop_all (show 0 < 5 by decide) (by decide)
    fun v (_ : v ∈ payload) => (v.toNat_lt : v.toNat < 2 ^ 8)
  have hlength : payload.length * 8 = out.length * 5 + bits := by simpa [nats] using hreg.length
  have hvalue : beValue 256 (nats payload) = beValue 32 (nats out) * 2 ^ bits + accumulator % 2 ^ bits := hreg.value
  have hout : ∀ d ∈ out, d.toNat < 32 := by simpa [nats] using hreg.digits
  have hrest := hreg.rest_lt
  rw [convertBits, hrun]
  dsimp only
  rw [if_pos rfl, last_eq hbits]
  by_cases hzero : bits = 0
  · subst hzero
    refine ⟨out, 0, congrArg some (if_neg fun hne => hne rfl), by decide, by omega, ?_, hout⟩
    rw [Nat.pow_zero] at hrest hvalue
    omega
  · have hlast : accumulator % 2 ^ bits * 2 ^ (5 - bits) < 32 := by
      have hsplit : 2 ^ 5 = 2 ^ bits * 2 ^ (5 - bits) := by rw [← Nat.pow_add, Nat.add_sub_cancel' hbits.le]
      have := Nat.mul_lt_mul_of_pos_right hrest (Nat.two_pow_pos (5 - bits))
      omega
    refine ⟨_, 5 - bits, congrArg some (if_pos hzero), by omega, ?_, ?_, ?_⟩
    · rw [length_append, length_singleton]
      omega
    · have hsplit : 32 = 2 ^ bits * 2 ^ (5 - bits) := by
        rw [← Nat.pow_add, Nat.add_sub_cancel' hbits.le]
      have hnats : nats (out ++ [UInt8.ofNat (accumulator % 2 ^ bits * 2 ^ (5 - bits))]) =
          nats out ++ [accumulator % 2 ^ bits * 2 ^ (5 - bits)] := by
        rw [nats_append, nats, nats, map_singleton, UInt8.toNat_ofNat', mod_eq_of_lt (by omega)]
      rw [hnats, beValue_snoc, hvalue, Nat.add_mul, Nat.mul_assoc, ← hsplit]
    · intro d hd
      rcases mem_append.mp hd with hd | hd
      · exact hout d hd
      · rw [mem_singleton.mp hd, UInt8.toNat_ofNat']
        omega

theorem convertBits_exact {data payload : Bytes} :
    convertBits data 5 8 false = some payload ↔ ∃ pad, Padded payload data pad := by
  constructor
  · intro h
    have hrun : ∃ r, convertLoop 5 8 0 0 [] data = some r := by
      cases hr : convertLoop 5 8 0 0 [] data with
      | none => simp [convertBits, hr] at h
      | some r => exact ⟨r, rfl⟩
    obtain ⟨r, hr⟩ := hrun
    have hdata := convertLoop_input hr
    obtain ⟨accumulator, bits, out, hrun, hbits, hreg⟩ := convertLoop_all (show 0 < 8 by decide) (by decide) hdata
    rw [convertBits, hrun] at h
    dsimp only at h
    rw [if_neg (by decide), last_eq hbits] at h
    split at h
    · cases h
    · rename_i hok
      obtain rfl := Option.some.inj h
      rw [not_or, not_not, Nat.not_le, Nat.mul_eq_zero] at hok
      have hzero : accumulator % 2 ^ bits = 0 := hok.2.resolve_right (Nat.two_pow_pos _).ne'
      refine ⟨bits, hok.1, by simpa [nats] using hreg.length, ?_, hdata⟩
      have hvalue := hreg.value
      rw [hzero, Nat.add_zero] at hvalue
      exact hvalue
  · intro ⟨pad, hpad⟩
    obtain ⟨accumulator, bits, out, hrun, hbits, hreg⟩ := convertLoop_all (show 0 < 8 by decide) (by decide)
      (show ∀ d ∈ data, d.toNat < 2 ^ 5 from hpad.symbols)
    have hwant : Regroups 5 8 (nats data) (nats payload) 0 pad := by
      refine ⟨by simpa [nats] using hpad.length, ?_, Nat.two_pow_pos _, ?_⟩
      · rw [Nat.add_zero]
        exact hpad.value
      · intro d hd
        obtain ⟨v, -, rfl⟩ := List.mem_map.mp hd
        exact v.toNat_lt
    obtain ⟨hout, hrest, rfl⟩ := hreg.unique (by decide) hwant hbits (Nat.lt_of_lt_of_le hpad.pad_lt (by decide))
    rw [convertBits, hrun]
    dsimp only
    rw [if_neg (by decide), last_eq hbits, hrest, Nat.zero_mul, nats_injective hout, if_neg]
    simpa using hpad.pad_lt

/-- A payload has one padded form. -/
theorem Padded.unique {payload data data' : Bytes} {pad pad' : Nat} (h : Padded payload data pad)
    (h' : Padded payload data' pad') : data = data' := by
  have hp := h.pad_lt
  have hp' := h'.pad_lt
  have hl := h.length
  have hl' := h'.length
  have hpad : pad = pad' := by omega
  have hlen : data.length = data'.length := by omega
  refine nats_injective (beValue_inj (b := 32) (by decide) (by simpa [nats] using hlen)
    (by simpa [nats] using h.symbols) (by simpa [nats] using h'.symbols) ?_)
  rw [h.value, h'.value, hpad]

/-! ## The alphabet -/

/-- The alphabet as bytes; the kernel would otherwise decode the string at every lookup. -/
theorem charset_eq :
    charset = [113, 112, 122, 114, 121, 57, 120, 56, 103, 102, 50, 116, 118, 100, 119, 48, 115, 51, 106,
    110, 53, 52, 107, 104, 99, 101, 54, 109, 117, 97, 55, 108] := by
  decide

theorem symbolOf_charOf : ∀ i : Fin 32, symbolOf (charOf (UInt8.ofNat i)) = some (UInt8.ofNat i) := by
  simp only [symbolOf, charOf, charset_eq]
  decide

theorem charOf_ne_separator : ∀ i : Fin 32, charOf (UInt8.ofNat i) ≠ separatorChar := by
  simp only [charOf, charset_eq]
  decide

theorem charset_symbols : ∀ c ∈ charset, ∃ i : Fin 32, c = charOf (UInt8.ofNat i) := by
  simp only [charOf, charset_eq]
  decide +kernel

example : symbolOf (chr 'q') = some 0 := by decide +kernel

theorem symbolOf_eq_some {c v : UInt8} : symbolOf c = some v ↔ v.toNat < 32 ∧ c = charOf v := by
  constructor
  · intro h
    have hmem : c ∈ charset := by
      by_contra hc
      rw [symbolOf, idxOf?_eq_none_iff.mpr hc] at h
      cases h
    obtain ⟨i, rfl⟩ := charset_symbols c hmem
    rw [symbolOf_charOf i] at h
    obtain rfl := Option.some.inj h
    refine ⟨?_, rfl⟩
    rw [UInt8.toNat_ofNat']
    omega
  · intro ⟨hv, hc⟩
    have := symbolOf_charOf ⟨v.toNat, hv⟩
    rw [UInt8.ofNat_toNat] at this
    rw [hc, this]

theorem symbols_eq_some {s data : Bytes} :
    s.mapM symbolOf = some data ↔ (∀ d ∈ data, d.toNat < 32) ∧ s = data.map charOf := by
  induction s generalizing data with
  | nil => cases data <;> simp
  | cons c s ih =>
    rw [mapM_cons]
    constructor
    · intro h
      simp only [Option.bind_eq_bind, Option.bind_eq_some_iff, Option.pure_def, Option.some.injEq] at h
      obtain ⟨v, hv, data', hdata', rfl⟩ := h
      obtain ⟨hlt, rfl⟩ := symbolOf_eq_some.mp hv
      obtain ⟨hall, rfl⟩ := ih.mp hdata'
      exact ⟨by simpa [hlt] using hall, rfl⟩
    · intro ⟨hall, hs⟩
      cases data with
      | nil => cases hs
      | cons v data =>
        rw [map_cons, List.cons.injEq] at hs
        have hv := symbolOf_eq_some.mpr ⟨hall v mem_cons_self, hs.1⟩
        have hrest := ih.mpr ⟨fun d hd => hall d (mem_cons_of_mem v hd), hs.2⟩
        rw [hv, hrest]
        rfl

theorem separator_not_mem {data : Bytes} (h : ∀ d ∈ data, d.toNat < 32) : separatorChar ∉ data.map charOf := by
  intro hmem
  obtain ⟨d, hd, e⟩ := List.mem_map.mp hmem
  have := charOf_ne_separator ⟨d.toNat, h d hd⟩
  rw [UInt8.ofNat_toNat] at this
  exact this e

/-! ## The codec -/

/-- What the decoder accepts: symbols whose remainder is the constant and whose first
part is a padded payload. -/
theorem decodeBech32m_eq_some {s hrp payload : Bytes} :
    decodeBech32m s hrp = some payload ↔ hrp ≠ [] ∧ ∃ data, s = hrp ++ separatorChar :: data.map charOf ∧
      (∀ d ∈ data, d.toNat < 32) ∧ 6 ≤ data.length ∧ polymod (expandHrp hrp ++ data) = bech32mConst ∧
      ∃ pad, Padded payload (data.take (data.length - 6)) pad := by
  constructor
  · intro h
    rw [decodeBech32m] at h
    cases hsep : rfind separatorChar s with
    | none =>
      rw [hsep] at h
      cases h
    | some separator =>
      obtain ⟨left, right, rfl, hnot, rfl⟩ := rfind_eq_some hsep
      rw [hsep] at h
      dsimp only at h
      split at h
      · cases h
      · rename_i hok
        rw [not_or, not_or, not_not, take_left, Nat.not_lt, length_append, length_cons] at hok
        obtain ⟨hne, hlen, rfl⟩ := hok
        have hdrop : (left ++ separatorChar :: right).drop (left.length + 1) = right := by
          rw [← drop_drop, drop_left]
          rfl
        rw [hdrop] at h
        cases hdata : right.mapM symbolOf with
        | none =>
          rw [hdata] at h
          cases h
        | some data =>
          rw [hdata] at h
          dsimp only at h
          split at h
          · cases h
          · rename_i hpoly
            rw [not_not] at hpoly
            obtain ⟨hall, rfl⟩ := symbols_eq_some.mp hdata
            rw [length_map] at hlen
            refine ⟨fun e => hne (by rw [e]; rfl), data, rfl, hall, by omega, hpoly, convertBits_exact.mp h⟩
  · intro ⟨hne, data, hs, hall, hlen, hpoly, hpad⟩
    have hfind : rfind separatorChar s = some hrp.length := by
      rw [hs]
      exact rfind_append hrp (separator_not_mem hall)
    have hdrop : s.drop (hrp.length + 1) = data.map charOf := by
      rw [hs, ← drop_drop, drop_left]
      rfl
    have hok : ¬ (hrp.length = 0 ∨ hrp.length + 7 > s.length ∨ s.take hrp.length ≠ hrp) := by
      rw [hs, take_left, length_append, length_cons, length_map]
      have : hrp.length ≠ 0 := fun e => hne (length_eq_zero_iff.mp e)
      simp only [ne_eq, not_true_eq_false, or_false]
      omega
    rw [decodeBech32m, hfind]
    dsimp only
    rw [if_neg hok, hdrop, symbols_eq_some.mpr ⟨hall, rfl⟩]
    dsimp only
    rw [if_neg (not_not.mpr hpoly)]
    exact convertBits_exact.mpr hpad

theorem encodeSymbols_eq {hrp payload data : Bytes} {pad : Nat} (h : Padded payload data pad) :
    encodeSymbols hrp payload = hrp ++ separatorChar :: (data ++ checksumSymbols
      (polymod (expandHrp hrp ++ data ++ List.replicate 6 0) ^^^ bech32mConst)).map charOf := by
  obtain ⟨data', pad', hconv, h'⟩ := convertBits_pad payload
  rw [encodeSymbols, hconv, h.unique h']

/-- The decoder reads back what the encoder writes. -/
theorem decode_encodeSymbols {hrp : Bytes} (hne : hrp ≠ []) (payload : Bytes) :
    decodeBech32m (encodeSymbols hrp payload) hrp = some payload := by
  obtain ⟨data, pad, -, h⟩ := convertBits_pad payload
  have hlen : (checksumSymbols (polymod (expandHrp hrp ++ data ++ List.replicate 6 0) ^^^ bech32mConst)).length = 6 := rfl
  rw [encodeSymbols_eq h, decodeBech32m_eq_some]
  refine ⟨hne, _, rfl, ?_, ?_, ?_, pad, ?_⟩
  · intro d hd
    rcases mem_append.mp hd with hd | hd
    · exact h.symbols d hd
    · exact checksumSymbols_lt _ d hd
  · rw [length_append, hlen]
    omega
  · rw [← append_assoc]
    exact (checksum_iff _ hlen (checksumSymbols_lt _)).mpr rfl
  · rw [length_append, hlen, Nat.add_sub_cancel, take_left]
    exact h

/-- The decoder accepts nothing else. -/
theorem encodeSymbols_decode {s hrp payload : Bytes} (h : decodeBech32m s hrp = some payload) :
    s = encodeSymbols hrp payload := by
  obtain ⟨hne, data, rfl, hall, hlen, hpoly, pad, hpad⟩ := decodeBech32m_eq_some.mp h
  have hsplit : data = data.take (data.length - 6) ++ data.drop (data.length - 6) := (take_append_drop _ _).symm
  have hlast : (data.drop (data.length - 6)).length = 6 := by
    rw [length_drop]
    omega
  rw [hsplit, ← append_assoc] at hpoly
  have hsum := (checksum_iff _ hlast fun d hd => hall d (mem_of_mem_drop hd)).mp hpoly
  rw [encodeSymbols_eq hpad, ← hsum, ← hsplit]

theorem decode_changed {s hrp payload : Bytes} (h : decodeBech32m s hrp = some payload) {i : Nat} (hi : hrp.length < i)
    (hlen : i < s.length) {c : UInt8} (hc : c ∈ charset) (hne : s[i]? ≠ some c) :
    decodeBech32m (s.set i c) hrp = none := by
  obtain ⟨-, data, rfl, hall, -, hpoly, -⟩ := decodeBech32m_eq_some.mp h
  obtain ⟨j, rfl⟩ : ∃ j, i = hrp.length + (j + 1) := ⟨i - hrp.length - 1, by omega⟩
  have hj : j < data.length := by
    rw [length_append, length_cons, length_map] at hlen
    omega
  have hset : (hrp ++ separatorChar :: data.map charOf).set (hrp.length + (j + 1)) c =
      hrp ++ separatorChar :: (data.map charOf).set j c := by
    rw [set_append_right _ _ (by omega), Nat.add_sub_cancel_left, set_cons_succ]
  obtain ⟨i, hchar⟩ := charset_symbols c hc
  have hi : (UInt8.ofNat i).toNat < 32 := by
    rw [UInt8.toNat_ofNat']
    omega
  have hold : data[j]? = some data[j] := getElem?_eq_getElem hj
  have hdiff : UInt8.ofNat i ≠ data[j] := by
    intro e
    apply hne
    rw [getElem?_append_right (by omega), Nat.add_sub_cancel_left, getElem?_cons_succ, getElem?_map,
      hold, Option.map_some, ← e, hchar]
  rw [← Option.not_isSome_iff_eq_none, Option.isSome_iff_exists]
  intro ⟨payload', h'⟩
  obtain ⟨-, data', hs', hall', -, hpoly', -⟩ := decodeBech32m_eq_some.mp h'
  -- the new string has the same symbols but one
  have hdata' : data' = data.set j (UInt8.ofNat i) := by
    rw [hset, append_cancel_left_eq, List.cons.injEq, hchar, ← map_set] at hs'
    have hsym := symbols_eq_some.mpr ⟨hall', hs'.2⟩
    have hsym' := symbols_eq_some (s := (data.set j (UInt8.ofNat i)).map charOf).mpr ⟨fun d hd => by
      rcases mem_or_eq_of_mem_set hd with hd | rfl
      · exact hall d hd
      · exact hi, rfl⟩
    exact Option.some.inj (hsym.symm.trans hsym')
  have hparts : data = data.take j ++ data[j] :: data.drop (j + 1) := by simp
  rw [hdata', set_eq_take_append_cons_drop, if_pos hj, ← append_assoc] at hpoly'
  rw [hparts, ← append_assoc] at hpoly
  exact polymod_change _ _ hi (hall _ (getElem_mem hj)) hdiff (hpoly'.trans hpoly.symm)

/-- Round trip, uniqueness and detection of one changed symbol. -/
theorem bech32m_codec :
    (∀ hrp payload : Bytes, hrp ≠ [] → decodeBech32m (encodeBech32m hrp payload) hrp = some payload) ∧
    (∀ s hrp payload : Bytes, decodeBech32m s hrp = some payload → s = encodeBech32m hrp payload) ∧
    ∀ (s hrp payload : Bytes) (i : Nat) (c : UInt8), decodeBech32m s hrp = some payload → hrp.length < i → i < s.length →
      c ∈ charset → s[i]? ≠ some c → decodeBech32m (s.set i c) hrp = none := by
  refine ⟨fun hrp payload hne => ?_, fun s hrp payload h => ?_, fun s hrp payload i c h hi hlen hc hne => ?_⟩
  · rw [encodeBech32m, if_neg hne]
    exact decode_encodeSymbols hne payload
  · rw [encodeBech32m, if_neg (decodeBech32m_eq_some.mp h).1]
    exact encodeSymbols_decode h
  · exact decode_changed h hi hlen hc hne

/-- A payload of two bytes and one changed symbol. -/
theorem bech32m_codec_example :
    decodeBech32m (encodeBech32m (ascii "disc") [7, 255]) (ascii "disc") = some [7, 255] ∧
    decodeBech32m ((encodeBech32m (ascii "disc") [7, 255]).set 6 113) (ascii "disc") = none := by
  have h := bech32m_codec.1 (ascii "disc") [7, 255] (by decide +kernel)
  exact ⟨h, bech32m_codec.2.2 _ _ _ 6 113 h (by decide +kernel) (by decide +kernel) (by decide +kernel)
    (by decide +kernel)⟩

/-- No room for a checksum. -/
example : decodeBech32m (ascii "disc1q") (ascii "disc") = none := by decide +kernel

end Discrete.L1
