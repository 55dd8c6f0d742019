import Mathlib.Tactic.FinCases
import Discrete.Core.Text

/-!
# Account numbers (`include/AccountNumber.h`)

`H-I-A-C` names a registration by block height and transaction index, with 20 bits `A` of
a fingerprint of its keys and a check symbol `C`; `H-I-A-T-C` also names a deposit. The
check symbol makes a sum over all symbols zero modulo 32, in which every second symbol
counts doubled (`Checks`).

* `accountNumber_codec`: both forms read back, neither reads as the other, and a string
  in which one symbol is replaced, or two neighbours are swapped, is not accepted.
-/
namespace Discrete.L1
open Nat List Option Codec

structure AccountNumber where
  blockHeight : UInt32
  txIndex : UInt32
  deriving DecidableEq

def crockford : Bytes := ascii "0123456789ABCDEFGHJKMNPQRSTVWXYZ"

def crockfordChar (v : Nat) : UInt8 := crockford.getD v 0

def toupper (c : UInt8) : UInt8 := if chr 'a' ≤ c ∧ c ≤ chr 'z' then c - 32 else c

/-- The value of a symbol; look-alikes and lower case are accepted.
mirrors include/AccountNumber.h:149-157 -/
def crockfordVal (c : UInt8) : Option Nat :=
  if chr '0' ≤ c ∧ c ≤ chr '9' then some (c - chr '0').toNat
  else
    let u := toupper c
    if u = chr 'O' then some 0
    else if u = chr 'I' ∨ u = chr 'L' then some 1
    else crockford.idxOf? u

def luhnDouble (codePoint : Nat) : Nat :=
  if codePoint * 2 ≥ 32 then codePoint * 2 / 32 + codePoint * 2 % 32 else codePoint * 2

/-- The loop of `luhn32Generate`, over the symbols from the last to the first. -/
def luhnLoop : (doubleFlag : Bool) → (sum : Nat) → Bytes → Option Nat
  | _, sum, [] => some sum
  | doubleFlag, sum, c :: symbols =>
    match crockfordVal c with
    | none => none
    | some codePoint => luhnLoop (!doubleFlag) (sum + if doubleFlag then luhnDouble codePoint else codePoint) symbols

/-- mirrors include/AccountNumber.h:161-178 -/
def luhn32Generate (symbols : Bytes) : UInt8 :=
  match luhnLoop true 0 symbols.reverse with
  | none => chr '?'
  | some sum => crockfordChar ((32 - sum % 32) % 32)

def encodeFingerprintLoop : Nat → UInt32 → Bytes → Bytes
  | 0, _, s => s
  | n + 1, fp20, s => encodeFingerprintLoop n (fp20 >>> 5) (crockfordChar (fp20 &&& 31).toNat :: s)

/-- mirrors include/AccountNumber.h:121-129 -/
def encodeFingerprint (fp20 : UInt32) : Bytes := encodeFingerprintLoop 4 (fp20 &&& 0xFFFFF) []

def decodeFingerprintLoop : UInt32 → Bytes → Option UInt32
  | v, [] => some v
  | v, ch :: s =>
    match crockfordVal ch with
    | none => none
    | some cv => decodeFingerprintLoop ((v <<< 5) ||| UInt32.ofNat cv) s

/-- mirrors include/AccountNumber.h:131-141 -/
def decodeFingerprint (s : Bytes) : Option UInt32 :=
  if s.length ≠ 4 then none else (decodeFingerprintLoop 0 s).map fun v => v &&& 0xFFFFF

/-- `std::to_string`. -/
def decimalString (n : UInt32) : Bytes := (decimalDigits 9 n.toNat).map fun d => UInt8.ofNat (48 + d)

def isDigit (c : UInt8) : Bool := decide (chr '0' ≤ c ∧ c ≤ chr '9')

def digitVal (c : UInt8) : Nat := c.toNat - 48

/-- mirrors include/AccountNumber.h:213-225 -/
def parseU32Decimal (s : Bytes) : Option UInt32 :=
  if s = [] then none
  else if s.all isDigit then
    let v := beValue 10 (s.map digitVal)
    -- `std::stoull` throws when the value does not fit 64 bits
    if v ≥ 2 ^ 64 then none
    else if v > 0xFFFFFFFF then none
    else some (UInt32.ofNat v)
  else none

def dash : UInt8 := chr '-'

/-- The fields, if there are exactly `dashes + 1`.
mirrors include/AccountNumber.h:182-211 -/
def splitFields (str : Bytes) (dashes : Nat) : Option (List Bytes) :=
  let fields := str.splitOn dash
  if fields.length ≠ dashes + 1 then none else some fields

/-- The deposit index is 0 in the form without one. -/
def parseIndex : Option Bytes → Option UInt32
  | none => some 0
  | some tStr => parseU32Decimal tStr

/-- mirrors include/AccountNumber.h:227-253 -/
def finalize (hStr iStr aStr cStr : Bytes) (tStr : Option Bytes) : Option (AccountNumber × UInt32 × UInt32) :=
  match cStr with
  | [c] => do
    let h ← parseU32Decimal hStr
    let i ← parseU32Decimal iStr
    let t ← parseIndex tStr
    let fp ← decodeFingerprint aStr
    let payload := hStr ++ iStr ++ encodeFingerprint fp ++ tStr.getD []
    let actual ← crockfordVal c
    if crockfordChar actual ≠ luhn32Generate payload then none else some (⟨h, i⟩, fp, t)
  | _ => none

namespace AccountNumber

/-- mirrors include/AccountNumber.h:74-80 -/
def toString (n : AccountNumber) (fingerprint : UInt32) : Bytes :=
  let h := decimalString n.blockHeight
  let i := decimalString n.txIndex
  let a := encodeFingerprint fingerprint
  h ++ dash :: (i ++ dash :: (a ++ dash :: [luhn32Generate (h ++ i ++ a)]))

/-- mirrors include/AccountNumber.h:84-88 -/
def fromString (str : Bytes) : Option (AccountNumber × UInt32) :=
  match splitFields str 3 with
  | some [hStr, iStr, aStr, cStr] => (finalize hStr iStr aStr cStr none).map fun r => (r.1, r.2.1)
  | _ => none

/-- mirrors include/AccountNumber.h:97-104 -/
def toStringWithIndex (n : AccountNumber) (subaddrIndex fingerprint : UInt32) : Bytes :=
  let h := decimalString n.blockHeight
  let i := decimalString n.txIndex
  let a := encodeFingerprint fingerprint
  let t := decimalString subaddrIndex
  h ++ dash :: (i ++ dash :: (a ++ dash :: (t ++ dash :: [luhn32Generate (h ++ i ++ a ++ t)])))

/-- mirrors include/AccountNumber.h:107-112 -/
def fromStringWithIndex (str : Bytes) : Option (AccountNumber × UInt32 × UInt32) :=
  match splitFields str 4 with
  | some [hStr, iStr, aStr, tStr, cStr] => (finalize hStr iStr aStr cStr (some tStr)).map fun r => (r.1, r.2.2, r.2.1)
  | _ => none

end AccountNumber

/-! ## Symbols -/

/-- The alphabet as bytes; the kernel would otherwise decode the string at every lookup. -/
theorem crockford_eq :
    crockford = [48, 49, 50, 51, 52, 53, 54, 55, 56, 57, 65, 66, 67, 68, 69, 70, 71, 72, 74, 75, 77, 78,
    80, 81, 82, 83, 84, 86, 87, 88, 89, 90] := by
  decide

variable {c : UInt8} {v : Nat}

theorem crockfordVal_lt (h : crockfordVal c = some v) : v < 32 := by
  simp only [crockfordVal] at h
  split_ifs at h with hdigit
  · cases h
    have hle := UInt8.le_iff_toNat_le.mp hdigit.2
    rw [UInt8.toNat_sub_of_le _ _ hdigit.1]
    exact Nat.lt_of_le_of_lt (Nat.sub_le_sub_right hle _) (by decide)
  · cases h; decide
  · cases h; decide
  · obtain ⟨hlt, -⟩ := findIdx?_eq_some_iff_getElem.mp h
    rwa [crockford_eq] at hlt

theorem crockfordVal_fin : ∀ v : Fin 32, crockfordVal (crockfordChar v) = some v.val := by
  simp only [crockfordVal, crockfordChar, crockford_eq]
  decide

theorem crockfordVal_char (h : v < 32) : crockfordVal (crockfordChar v) = some v := crockfordVal_fin ⟨v, h⟩

theorem crockfordChar_ne_dash : ∀ v : Fin 32, crockfordChar v ≠ dash := by
  simp only [crockfordChar, crockford_eq]
  decide

theorem crockfordVal_dash : crockfordVal dash = none := by
  rw [crockfordVal, crockford_eq]
  decide

theorem crockfordVal_digit : ∀ d : Fin 10, crockfordVal (UInt8.ofNat (48 + d)) = some d.val := by
  simp only [crockfordVal, crockford_eq]
  decide

/-- The value of a symbol that has one. -/
def symVal (c : UInt8) : Nat := (crockfordVal c).getD 0

theorem symVal_of (h : crockfordVal c = some v) : symVal c = v := by
  rw [symVal, h]
  rfl

theorem symVal_lt (c : UInt8) : symVal c < 32 := by
  rw [symVal]
  cases h : crockfordVal c with
  | none => decide
  | some v => exact crockfordVal_lt h

/-! ## The check -/

/-- What the loop adds up, from the last symbol to the first. -/
def luhnSum : Bool → List Nat → Nat
  | _, [] => 0
  | doubleFlag, v :: vs => (if doubleFlag then luhnDouble v else v) + luhnSum (!doubleFlag) vs

theorem luhnLoop_eq : ∀ {l : Bytes} {doubleFlag : Bool} {sum : Nat}, (∀ c ∈ l, (crockfordVal c).isSome) →
    luhnLoop doubleFlag sum l = some (sum + luhnSum doubleFlag (l.map symVal))
  | [], _, _, _ => rfl
  | c :: l, doubleFlag, sum, h => by
    obtain ⟨v, hv⟩ := isSome_iff_exists.mp (h c mem_cons_self)
    rw [luhnLoop, hv]
    dsimp only
    rw [luhnLoop_eq fun d hd => h d (mem_cons_of_mem c hd), map_cons, luhnSum, symVal_of hv, Nat.add_assoc]

/-- Whether the symbol after `l` counts doubled. -/
def flagAfter (doubleFlag : Bool) (l : List Nat) : Bool := if l.length % 2 = 0 then doubleFlag else !doubleFlag

theorem luhnSum_append : ∀ (a b : List Nat) (doubleFlag : Bool),
    luhnSum doubleFlag (a ++ b) = luhnSum doubleFlag a + luhnSum (flagAfter doubleFlag a) b
  | [], b, doubleFlag => by simp [luhnSum, flagAfter]
  | v :: a, b, doubleFlag => by
    have hflag : flagAfter (!doubleFlag) a = flagAfter doubleFlag (v :: a) := by
      unfold flagAfter
      rw [length_cons]
      rcases mod_two_eq_zero_or_one a.length with h | h
      · rw [if_pos h, if_neg (by omega)]
      · rw [if_neg (by omega), if_pos (by omega), Bool.not_not]
    rw [cons_append, luhnSum, luhnSum_append a b, luhnSum, hflag, Nat.add_assoc]

/-- All symbols of a number, the check symbol last: they have values, and the sum is zero. -/
structure Checks (l : Bytes) : Prop where
  symbols : ∀ c ∈ l, (crockfordVal c).isSome
  sum : luhnSum false (l.map symVal).reverse % 32 = 0

/-- The weight of a symbol. -/
def weightOf (doubleFlag : Bool) (v : Nat) : Nat := if doubleFlag then luhnDouble v else v

/-- Both weights are bijective on the values. -/
theorem weightOf_inj : ∀ (doubleFlag : Bool) (v w : Fin 32),
    weightOf doubleFlag v % 32 = weightOf doubleFlag w % 32 → v = w := by
  decide

/-- Neighbours with the same sum in both orders. -/
theorem weightOf_swap : ∀ (doubleFlag : Bool) (v w : Fin 32),
    (weightOf doubleFlag v + weightOf (!doubleFlag) w) % 32 = (weightOf doubleFlag w + weightOf (!doubleFlag) v) % 32 →
      v = w ∨ (v.val = 0 ∧ w.val = 31) ∨ (v.val = 31 ∧ w.val = 0) := by
  decide

theorem luhnSum_replace (l r : List Nat) (v : Nat) (doubleFlag : Bool) :
    luhnSum doubleFlag (l ++ v :: r).reverse = luhnSum doubleFlag r.reverse +
      weightOf (flagAfter doubleFlag r.reverse) v + luhnSum (!flagAfter doubleFlag r.reverse) l.reverse := by
  have hrev : (l ++ v :: r).reverse = r.reverse ++ v :: l.reverse := by simp
  rw [hrev, luhnSum_append, luhnSum, weightOf, Nat.add_assoc]

variable {l r : Bytes} {x y : UInt8}

theorem Checks.replaced (h : Checks (l ++ x :: r)) (h' : Checks (l ++ y :: r)) : symVal x = symVal y := by
  have hsum := h.sum
  have hsum' := h'.sum
  rw [map_append, map_cons, luhnSum_replace] at hsum hsum'
  have hweight : weightOf (flagAfter false (r.map symVal).reverse) (symVal x) % 32 =
      weightOf (flagAfter false (r.map symVal).reverse) (symVal y) % 32 := by omega
  exact Fin.mk.inj (weightOf_inj _ ⟨symVal x, symVal_lt x⟩ ⟨symVal y, symVal_lt y⟩ hweight)

theorem Checks.swapped (h : Checks (l ++ x :: y :: r)) (h' : Checks (l ++ y :: x :: r)) :
    symVal x = symVal y ∨ (symVal x = 0 ∧ symVal y = 31) ∨ (symVal x = 31 ∧ symVal y = 0) := by
  have hrev : ∀ v w : Nat, luhnSum false (l.map symVal ++ v :: w :: r.map symVal).reverse =
      luhnSum false (r.map symVal).reverse + (weightOf (flagAfter false (r.map symVal).reverse) w +
        weightOf (!flagAfter false (r.map symVal).reverse) v) +
      luhnSum (flagAfter false (r.map symVal).reverse) (l.map symVal).reverse := by
    intro v w
    have hrev : (l.map symVal ++ v :: w :: r.map symVal).reverse =
        (r.map symVal).reverse ++ w :: v :: (l.map symVal).reverse := by simp
    rw [hrev, luhnSum_append, luhnSum, luhnSum, Bool.not_not, weightOf, weightOf]
    omega
  have hsum := h.sum
  have hsum' := h'.sum
  rw [map_append, map_cons, map_cons, hrev] at hsum hsum'
  have hweight : (weightOf (flagAfter false (r.map symVal).reverse) (symVal y) +
        weightOf (!flagAfter false (r.map symVal).reverse) (symVal x)) % 32 =
      (weightOf (flagAfter false (r.map symVal).reverse) (symVal x) +
        weightOf (!flagAfter false (r.map symVal).reverse) (symVal y)) % 32 := by omega
  rcases weightOf_swap _ ⟨symVal y, symVal_lt y⟩ ⟨symVal x, symVal_lt x⟩ hweight with e | ⟨hy, hx⟩ | ⟨hy, hx⟩
  · exact .inl (Fin.mk.inj e).symm
  · exact .inr (.inr ⟨hx, hy⟩)
  · exact .inr (.inl ⟨hx, hy⟩)

/-! ## The fingerprint -/

theorem shr5 (x : UInt32) : (x >>> 5).toNat = x.toNat / 32 := by
  rw [UInt32.toNat_shiftRight, shiftRight_eq_div_pow]
  rfl

theorem low5 (x : UInt32) : (x &&& 31).toNat = x.toNat % 32 := by
  rw [UInt32.toNat_and, show (31 : UInt32).toNat = 2 ^ 5 - 1 from rfl, and_two_pow_sub_one_eq_mod]

theorem low20 (x : UInt32) : (x &&& 0xFFFFF).toNat = x.toNat % 2 ^ 20 := by
  rw [UInt32.toNat_and, show (0xFFFFF : UInt32).toNat = 2 ^ 20 - 1 from rfl, and_two_pow_sub_one_eq_mod]

theorem shl5_or {v : UInt32} {cv : Nat} (hv : v.toNat < 2 ^ 27) (hcv : cv < 32) :
    ((v <<< 5) ||| UInt32.ofNat cv).toNat = v.toNat * 32 + cv := by
  have hcv' : cv < 2 ^ 5 := hcv
  rw [UInt32.toNat_or, UInt32.toNat_shiftLeft, UInt32.toNat_ofNat', mod_eq_of_lt (show cv < 2 ^ 32 by omega),
    show (5 : UInt32).toNat % 32 = 5 from rfl, shiftLeft_eq, mod_eq_of_lt (by omega), ← shiftLeft_eq,
    ← shiftLeft_add_eq_or_of_lt hcv', shiftLeft_eq]

/-- The four symbols of a fingerprint. -/
def fingerprintVals (fp : Nat) : List Nat := [fp / 32768 % 32, fp / 1024 % 32, fp / 32 % 32, fp % 32]

theorem encodeFingerprint_eq (fp20 : UInt32) :
    encodeFingerprint fp20 = (fingerprintVals (fp20.toNat % 2 ^ 20)).map crockfordChar := by
  have hdiv : fp20.toNat % 2 ^ 20 / 32 / 32 = fp20.toNat % 2 ^ 20 / 1024 := by omega
  have hdiv' : fp20.toNat % 2 ^ 20 / 32 / 32 / 32 = fp20.toNat % 2 ^ 20 / 32768 := by omega
  simp only [encodeFingerprint, encodeFingerprintLoop, low5, shr5, low20, fingerprintVals, hdiv', map_cons, map_nil]
  rw [hdiv]

theorem decodeFingerprintLoop_cons {v : UInt32} {ch : UInt8} (hv : v.toNat < 2 ^ 27) (hch : (crockfordVal ch).isSome)
    (s : Bytes) : ∃ v', decodeFingerprintLoop v (ch :: s) = decodeFingerprintLoop v' s ∧
      v'.toNat = v.toNat * 32 + symVal ch := by
  obtain ⟨cv, hcv⟩ := isSome_iff_exists.mp hch
  refine ⟨(v <<< 5) ||| UInt32.ofNat cv, by rw [decodeFingerprintLoop, hcv], ?_⟩
  rw [shl5_or hv (crockfordVal_lt hcv), symVal_of hcv]

variable {s : Bytes}

/-- Four symbols give the number they denote. -/
theorem decodeFingerprint_eq (hlen : s.length = 4) (hs : ∀ c ∈ s, (crockfordVal c).isSome) :
    ∃ fp, decodeFingerprint s = some fp ∧ fp.toNat < 2 ^ 20 ∧ fingerprintVals fp.toNat = s.map symVal := by
  match s, hlen with
  | [a, b, c, d], _ =>
    have ha := symVal_lt a
    have hb := symVal_lt b
    have hc := symVal_lt c
    have hd := symVal_lt d
    have h0 : (0 : UInt32).toNat = 0 := rfl
    obtain ⟨v1, e1, h1⟩ := decodeFingerprintLoop_cons (v := 0) (by decide) (hs a (by simp)) [b, c, d]
    obtain ⟨v2, e2, h2⟩ := decodeFingerprintLoop_cons (v := v1) (by omega) (hs b (by simp)) [c, d]
    obtain ⟨v3, e3, h3⟩ := decodeFingerprintLoop_cons (v := v2) (by omega) (hs c (by simp)) [d]
    obtain ⟨v4, e4, h4⟩ := decodeFingerprintLoop_cons (v := v3) (by omega) (hs d (by simp)) []
    refine ⟨v4 &&& 0xFFFFF, ?_, ?_, ?_⟩
    · rw [decodeFingerprint, if_neg (by simp), e1, e2, e3, e4]
      rfl
    · rw [low20]
      exact mod_lt _ (by decide)
    · rw [low20]
      simp only [fingerprintVals, map_cons, map_nil, List.cons.injEq, and_true]
      omega

variable {fp : UInt32}

theorem decodeFingerprint_some (h : decodeFingerprint s = some fp) :
    s.length = 4 ∧ ∀ c ∈ s, (crockfordVal c).isSome := by
  rw [decodeFingerprint] at h
  split at h
  · cases h
  · rename_i hlen
    obtain ⟨v, hv, -⟩ := map_eq_some_iff.mp h
    have hloop : ∀ (s : Bytes) (v w : UInt32), decodeFingerprintLoop v s = some w →
        ∀ c ∈ s, (crockfordVal c).isSome := by
      intro s
      induction s with
      | nil => simp
      | cons c s ih =>
        intro v w h d hd
        rw [decodeFingerprintLoop] at h
        cases hc : crockfordVal c with
        | none =>
          rw [hc] at h
          cases h
        | some cv =>
          rw [hc] at h
          rcases mem_cons.mp hd with rfl | hd
          · rw [hc]
            rfl
          · exact ih _ _ h d hd
    exact ⟨not_not.mp hlen, hloop s 0 v hv⟩

theorem fingerprintVals_lt (fp : Nat) : ∀ v ∈ fingerprintVals fp, v < 32 := by
  intro v hv
  simp only [fingerprintVals, mem_cons, not_mem_nil, or_false] at hv
  omega

theorem encodeFingerprint_symbols (fp : UInt32) : ∀ c ∈ encodeFingerprint fp, (crockfordVal c).isSome := by
  rw [encodeFingerprint_eq]
  intro c hc
  obtain ⟨v, hv, rfl⟩ := List.mem_map.mp hc
  rw [crockfordVal_char (fingerprintVals_lt _ v hv)]
  rfl

theorem encodeFingerprint_vals (h : fp.toNat < 2 ^ 20) :
    (encodeFingerprint fp).map symVal = fingerprintVals fp.toNat := by
  rw [encodeFingerprint_eq, mod_eq_of_lt h, List.map_map]
  refine (map_congr_left fun v hv => ?_).trans (List.map_id _)
  exact symVal_of (crockfordVal_char (fingerprintVals_lt _ v hv))

/-- The canonical symbols have the values of the typed ones. -/
theorem encode_decodeFingerprint (h : decodeFingerprint s = some fp) :
    (encodeFingerprint fp).map symVal = s.map symVal := by
  obtain ⟨hlen, hs⟩ := decodeFingerprint_some h
  obtain ⟨fp', hfp', hlt, hvals⟩ := decodeFingerprint_eq hlen hs
  obtain rfl := some.inj (h.symm.trans hfp')
  rw [encodeFingerprint_vals hlt, hvals]

theorem decode_encodeFingerprint (h : fp.toNat < 2 ^ 20) : decodeFingerprint (encodeFingerprint fp) = some fp := by
  obtain ⟨fp', hfp', hlt, hvals⟩ :=
    decodeFingerprint_eq (by rw [encodeFingerprint_eq]; rfl) (encodeFingerprint_symbols fp)
  rw [hfp', some.injEq]
  rw [encodeFingerprint_vals h] at hvals
  apply UInt32.toNat_inj.mp
  simp only [fingerprintVals, List.cons.injEq, and_true] at hvals
  omega

/-! ## Decimal fields -/

theorem digit_cases (h : isDigit c = true) : ∃ d : Fin 10, c = UInt8.ofNat (48 + d) := by
  rw [isDigit, decide_eq_true_eq, UInt8.le_iff_toNat_le, UInt8.le_iff_toNat_le] at h
  have h0 : (chr '0').toNat = 48 := by decide
  have h9 : (chr '9').toNat = 57 := by decide
  refine ⟨⟨c.toNat - 48, by omega⟩, ?_⟩
  apply UInt8.toNat_inj.mp
  rw [UInt8.toNat_ofNat']
  dsimp only
  omega

theorem isDigit_symbol (h : isDigit c = true) : (crockfordVal c).isSome := by
  obtain ⟨d, rfl⟩ := digit_cases h
  rw [crockfordVal_digit]
  rfl

theorem parseU32Decimal_digits {n : UInt32} (h : parseU32Decimal s = some n) : s ≠ [] ∧ ∀ c ∈ s, isDigit c = true := by
  rw [parseU32Decimal] at h
  split at h
  · cases h
  · rename_i hne
    split at h
    · rename_i hall
      exact ⟨hne, List.all_eq_true.mp hall⟩
    · cases h

theorem parseU32Decimal_some {n : UInt32} (h : parseU32Decimal s = some n) :
    ∀ c ∈ s, (crockfordVal c).isSome := fun c hc => isDigit_symbol ((parseU32Decimal_digits h).2 c hc)

theorem decimalDigits_text {fuel n : Nat} (hn : n < 10 ^ (fuel + 1)) :
    beValue 10 (((decimalDigits fuel n).map fun d => UInt8.ofNat (48 + d)).map digitVal) = n ∧
      ∀ c ∈ (decimalDigits fuel n).map fun d => UInt8.ofNat (48 + d), isDigit c = true := by
  have hdigit : ∀ d : Fin 10, digitVal (UInt8.ofNat (48 + d)) = d ∧ isDigit (UInt8.ofNat (48 + d)) = true := by decide
  constructor
  · have hvals : ((decimalDigits fuel n).map fun d => UInt8.ofNat (48 + d)).map digitVal = decimalDigits fuel n := by
      rw [List.map_map]
      exact (map_congr_left fun d hd => (hdigit ⟨d, decimalDigits_lt d hd⟩).1).trans (List.map_id _)
    rw [hvals, beValue_decimalDigits hn]
  · intro c hc
    obtain ⟨d, hd, rfl⟩ := List.mem_map.mp hc
    exact (hdigit ⟨d, decimalDigits_lt d hd⟩).2

theorem decimalString_digits (n : UInt32) : ∀ c ∈ decimalString n, isDigit c = true :=
  (decimalDigits_text (by have := n.toNat_lt; omega)).2

theorem parse_decimalString (n : UInt32) : parseU32Decimal (decimalString n) = some n := by
  have hlt := n.toNat_lt
  have hne : decimalString n ≠ [] := by
    rw [decimalString, Ne, map_eq_nil_iff]
    exact decimalDigits_ne_nil
  have hall : (decimalString n).all isDigit = true := List.all_eq_true.mpr (decimalString_digits n)
  have hvalue : beValue 10 ((decimalString n).map digitVal) = n.toNat := (decimalDigits_text (by omega)).1
  rw [parseU32Decimal, if_neg hne, if_pos hall, hvalue]
  dsimp only
  rw [if_neg (by omega), if_neg (by omega), UInt32.ofNat_toNat]

/-! ## Strings -/

theorem luhn32Generate_eq {symbols : Bytes} (h : ∀ c ∈ symbols, (crockfordVal c).isSome) :
    luhn32Generate symbols = crockfordChar ((32 - luhnSum true (symbols.map symVal).reverse % 32) % 32) := by
  rw [luhn32Generate, luhnLoop_eq fun c hc => h c (mem_reverse.mp hc), Nat.zero_add, map_reverse]

/-- An accepted number has the right sum. -/
theorem finalize_checks {hStr iStr aStr cStr : Bytes} {tStr : Option Bytes} {r : AccountNumber × UInt32 × UInt32}
    (h : finalize hStr iStr aStr cStr tStr = some r) : Checks (hStr ++ iStr ++ aStr ++ tStr.getD [] ++ cStr) := by
  unfold finalize at h
  split at h
  · rename_i c
    simp only [bind_eq_bind, bind_eq_some_iff] at h
    obtain ⟨hv, hh, iv, hi, tv, ht, fp, hfp, actual, hactual, h⟩ := h
    split at h
    · cases h
    · rename_i hexpected
      have hhs := parseU32Decimal_some hh
      have his := parseU32Decimal_some hi
      obtain ⟨-, has⟩ := decodeFingerprint_some hfp
      have hts : ∀ d ∈ tStr.getD [], (crockfordVal d).isSome := by
        cases tStr with
        | none => simp
        | some t => exact parseU32Decimal_some ht
      have hpayload : ∀ d ∈ hStr ++ iStr ++ encodeFingerprint fp ++ tStr.getD [], (crockfordVal d).isSome := by
        intro d hd
        simp only [mem_append] at hd
        rcases hd with ((hd | hd) | hd) | hd
        · exact hhs d hd
        · exact his d hd
        · exact encodeFingerprint_symbols fp d hd
        · exact hts d hd
      rw [not_not, luhn32Generate_eq hpayload] at hexpected
      refine ⟨?_, ?_⟩
      · intro d hd
        simp only [mem_append, mem_singleton] at hd
        rcases hd with (((hd | hd) | hd) | hd) | rfl
        · exact hhs d hd
        · exact his d hd
        · exact has d hd
        · exact hts d hd
        · rw [hactual]
          rfl
      · have hvals : (hStr ++ iStr ++ encodeFingerprint fp ++ tStr.getD []).map symVal =
            (hStr ++ iStr ++ aStr ++ tStr.getD []).map symVal := by
          simp only [map_append, encode_decodeFingerprint hfp]
        rw [hvals] at hexpected
        -- equal symbols have equal values
        have hcheck := congrArg crockfordVal hexpected
        rw [crockfordVal_char (crockfordVal_lt hactual), crockfordVal_char (mod_lt _ (by decide)),
          some.injEq] at hcheck
        rw [map_append, map_singleton, reverse_append, reverse_singleton, singleton_append, luhnSum, symVal_of hactual]
        simp only [Bool.false_eq_true, if_false, Bool.not_false]
        have := crockfordVal_lt hactual
        omega
  · cases h

/-- Accepted in one of the two forms. -/
def Accepted (s : Bytes) : Prop := (AccountNumber.fromString s).isSome ∨ (AccountNumber.fromStringWithIndex s).isSome

theorem splitFields_some {n : Nat} {fields : List Bytes} (h : splitFields s n = some fields) :
    s.splitOn dash = fields := by
  rw [splitFields] at h
  split at h
  · cases h
  · exact some.inj h

theorem accepted_checks (h : Accepted s) : Checks (s.filter fun c => decide (c ≠ dash)) := by
  rw [← flatten_splitOn dash s]
  rcases h with h | h
  · obtain ⟨r, hr⟩ := isSome_iff_exists.mp h
    rw [AccountNumber.fromString] at hr
    split at hr
    · rename_i hStr iStr aStr cStr hf
      obtain ⟨r', hr', -⟩ := map_eq_some_iff.mp hr
      have hc := finalize_checks hr'
      rw [splitFields_some hf]
      simpa using hc
    · cases hr
  · obtain ⟨r, hr⟩ := isSome_iff_exists.mp h
    rw [AccountNumber.fromStringWithIndex] at hr
    split at hr
    · rename_i hStr iStr aStr tStr cStr hf
      obtain ⟨r', hr', -⟩ := map_eq_some_iff.mp hr
      have hc := finalize_checks hr'
      rw [splitFields_some hf]
      simpa using hc
    · cases hr

/-- A number begins with the digits of its height. -/
theorem fromStringWithIndex_digit {r : AccountNumber × UInt32 × UInt32}
    (h : AccountNumber.fromStringWithIndex s = some r) : ∃ c rest, s = c :: rest ∧ isDigit c = true := by
  rw [AccountNumber.fromStringWithIndex] at h
  split at h
  · rename_i hStr iStr aStr tStr cStr hf
    obtain ⟨r', hr', -⟩ := map_eq_some_iff.mp h
    unfold finalize at hr'
    split at hr'
    · simp only [bind_eq_bind, bind_eq_some_iff] at hr'
      obtain ⟨height, hheight, -⟩ := hr'
      obtain ⟨hne, hdigits⟩ := parseU32Decimal_digits hheight
      obtain ⟨c, hRest, rfl⟩ := exists_cons_of_ne_nil hne
      have hs : [dash].intercalate (s.splitOn dash) = s := intercalate_splitOn dash
      rw [splitFields_some hf] at hs
      exact ⟨c, _, hs.symm, hdigits c mem_cons_self⟩
    · cases hr'
  · cases h

theorem accepted_symbol (h : Accepted (l ++ x :: r)) (hx : x ≠ dash) : (crockfordVal x).isSome := by
  refine (accepted_checks h).symbols x (mem_filter.mpr ⟨by simp, by simpa using hx⟩)

theorem ne_dash_of_symbol (h : crockfordVal c = some v) : c ≠ dash := by
  intro e
  rw [e, crockfordVal_dash] at h
  cases h

/-- One symbol replaced by one of another value. -/
theorem not_accepted_replaced (h : Accepted (l ++ x :: r)) (hx : x ≠ dash)
    (hy : (crockfordVal y).isSome) (hne : crockfordVal x ≠ crockfordVal y) : ¬ Accepted (l ++ y :: r) := by
  intro h'
  obtain ⟨v, hv⟩ := isSome_iff_exists.mp (accepted_symbol h hx)
  obtain ⟨w, hw⟩ := isSome_iff_exists.mp hy
  have hc := accepted_checks h
  have hc' := accepted_checks h'
  rw [filter_append, filter_cons_of_pos (by simpa using hx)] at hc
  rw [filter_append, filter_cons_of_pos (by simpa using ne_dash_of_symbol hw)] at hc'
  have hsame := hc.replaced hc'
  rw [symVal_of hv, symVal_of hw] at hsame
  exact hne (by rw [hv, hw, hsame])

/-- Two neighbours swapped. -/
theorem not_accepted_swapped {w : Nat} (h : Accepted (l ++ x :: y :: r)) (hx : crockfordVal x = some v)
    (hy : crockfordVal y = some w) (hne : v ≠ w) (hpair : ¬ (v = 0 ∧ w = 31) ∧ ¬ (v = 31 ∧ w = 0)) :
    ¬ Accepted (l ++ y :: x :: r) := by
  intro h'
  have hkeep : ∀ {c : UInt8} {u : Nat} (t : Bytes), crockfordVal c = some u →
      (c :: t).filter (fun c => decide (c ≠ dash)) = c :: t.filter fun c => decide (c ≠ dash) := fun t hc =>
    filter_cons_of_pos (by simpa using ne_dash_of_symbol hc)
  have hc := accepted_checks h
  have hc' := accepted_checks h'
  rw [filter_append, hkeep _ hx, hkeep _ hy] at hc
  rw [filter_append, hkeep _ hy, hkeep _ hx] at hc'
  have hswap := hc.swapped hc'
  rw [symVal_of hx, symVal_of hy] at hswap
  rcases hswap with e | e | e
  · exact hne e
  · exact hpair.1 e
  · exact hpair.2 e

/-! ## Round trips -/

theorem decimalString_no_dash (n : UInt32) : dash ∉ decimalString n := fun h =>
  absurd (decimalString_digits n dash h) (by decide)

theorem encodeFingerprint_no_dash (fp : UInt32) : dash ∉ encodeFingerprint fp := by
  rw [encodeFingerprint_eq]
  intro h
  obtain ⟨v, hv, e⟩ := List.mem_map.mp h
  exact crockfordChar_ne_dash ⟨v, fingerprintVals_lt _ v hv⟩ e

theorem decimalString_symbols (n : UInt32) : ∀ c ∈ decimalString n, (crockfordVal c).isSome :=
  fun c hc => isDigit_symbol (decimalString_digits n c hc)

theorem payload_symbols (n : AccountNumber) (fp : UInt32) (tStr : Option UInt32) :
    ∀ c ∈ decimalString n.blockHeight ++ decimalString n.txIndex ++ encodeFingerprint fp ++
      (tStr.map decimalString).getD [], (crockfordVal c).isSome := by
  intro c hc
  simp only [mem_append] at hc
  rcases hc with ((hc | hc) | hc) | hc
  · exact decimalString_symbols _ c hc
  · exact decimalString_symbols _ c hc
  · exact encodeFingerprint_symbols _ c hc
  · cases tStr with
    | none => cases hc
    | some t => exact decimalString_symbols t c hc

/-- The check symbol that the encoder writes. -/
theorem checkSymbol {payload : Bytes} (h : ∀ c ∈ payload, (crockfordVal c).isSome) :
    luhn32Generate payload ≠ dash ∧ ∃ v, crockfordVal (luhn32Generate payload) = some v ∧
      crockfordChar v = luhn32Generate payload := by
  have hlt : (32 - luhnSum true (payload.map symVal).reverse % 32) % 32 < 32 := mod_lt _ (by decide)
  rw [luhn32Generate_eq h]
  exact ⟨crockfordChar_ne_dash ⟨_, hlt⟩, _, crockfordVal_char hlt, rfl⟩

theorem finalize_encoded (n : AccountNumber) (hfp : fp.toNat < 2 ^ 20) {t : UInt32} (tStr : Option UInt32)
    (ht : tStr.getD 0 = t) :
    finalize (decimalString n.blockHeight) (decimalString n.txIndex) (encodeFingerprint fp)
      [luhn32Generate (decimalString n.blockHeight ++ decimalString n.txIndex ++ encodeFingerprint fp ++
        (tStr.map decimalString).getD [])] (tStr.map decimalString) = some (n, fp, t) := by
  obtain ⟨-, v, hv, hchar⟩ := checkSymbol (payload_symbols n fp tStr)
  cases tStr with
  | none =>
    subst ht
    simp only [finalize, parseIndex, map_none, bind_eq_bind, parse_decimalString, bind_some,
      decode_encodeFingerprint hfp] at hv hchar ⊢
    rw [hv, bind_some, hchar, if_neg (fun h => h rfl)]
    rfl
  | some t' =>
    subst ht
    simp only [finalize, parseIndex, map_some, bind_eq_bind, parse_decimalString, bind_some,
      decode_encodeFingerprint hfp] at hv hchar ⊢
    rw [hv, bind_some, hchar, if_neg (fun h => h rfl)]
    rfl

theorem splitFields_eq {fields : List Bytes} (h : s.splitOn dash = fields) (n : Nat) :
    splitFields s n = if fields.length ≠ n + 1 then none else some fields := by
  rw [splitFields, h]

theorem splitFields_three {f1 f2 f3 f4 : Bytes} (h1 : dash ∉ f1) (h2 : dash ∉ f2) (h3 : dash ∉ f3) (h4 : dash ∉ f4) :
    (f1 ++ dash :: (f2 ++ dash :: (f3 ++ dash :: f4))).splitOn dash = [f1, f2, f3, f4] := by
  rw [splitOn_append h1, splitOn_append h2, splitOn_append h3, splitOn_of_not_mem h4]

theorem from_toString (n : AccountNumber) (hfp : fp.toNat < 2 ^ 20) :
    AccountNumber.fromString (n.toString fp) = some (n, fp) ∧ AccountNumber.fromStringWithIndex (n.toString fp) = none := by
  have hcheck : dash ∉ [luhn32Generate (decimalString n.blockHeight ++ decimalString n.txIndex ++
      encodeFingerprint fp)] := by simpa using (checkSymbol (payload_symbols n fp none)).1.symm
  have hsplit := splitFields_three (decimalString_no_dash n.blockHeight) (decimalString_no_dash n.txIndex)
    (encodeFingerprint_no_dash fp) hcheck
  have hfin := finalize_encoded n hfp none rfl
  rw [map_none, getD_none, append_nil] at hfin
  constructor
  · rw [AccountNumber.fromString, splitFields_eq (s := n.toString fp) hsplit, if_neg (by simp)]
    dsimp only
    rw [hfin]
    rfl
  · rw [AccountNumber.fromStringWithIndex, splitFields_eq (s := n.toString fp) hsplit, if_pos (by simp)]

theorem from_toStringWithIndex (n : AccountNumber) (t : UInt32) (hfp : fp.toNat < 2 ^ 20) :
    AccountNumber.fromStringWithIndex (n.toStringWithIndex t fp) = some (n, t, fp) ∧
      AccountNumber.fromString (n.toStringWithIndex t fp) = none := by
  have hcheck : dash ∉ [luhn32Generate (decimalString n.blockHeight ++ decimalString n.txIndex ++
      encodeFingerprint fp ++ decimalString t)] := by simpa using (checkSymbol (payload_symbols n fp (some t))).1.symm
  have hsplit : (n.toStringWithIndex t fp).splitOn dash = decimalString n.blockHeight :: _ :=
    (splitOn_append (decimalString_no_dash n.blockHeight) _).trans (congrArg _ (splitFields_three
      (decimalString_no_dash n.txIndex) (encodeFingerprint_no_dash fp) (decimalString_no_dash t) hcheck))
  have hfin := finalize_encoded n hfp (some t) rfl
  rw [map_some, getD_some] at hfin
  constructor
  · rw [AccountNumber.fromStringWithIndex, splitFields_eq hsplit, if_neg (by simp)]
    dsimp only
    rw [hfin]
    rfl
  · rw [AccountNumber.fromString, splitFields_eq hsplit, if_pos (by simp)]

/-- Round trips of both forms, and the errors that are caught. -/
theorem accountNumber_codec :
    (∀ (n : AccountNumber) (fp : UInt32), fp.toNat < 2 ^ 20 → AccountNumber.fromString (n.toString fp) = some (n, fp) ∧
      AccountNumber.fromStringWithIndex (n.toString fp) = none) ∧
    (∀ (n : AccountNumber) (t fp : UInt32), fp.toNat < 2 ^ 20 →
      AccountNumber.fromStringWithIndex (n.toStringWithIndex t fp) = some (n, t, fp) ∧
      AccountNumber.fromString (n.toStringWithIndex t fp) = none) ∧
    (∀ (l r : Bytes) (x y : UInt8), Accepted (l ++ x :: r) → x ≠ dash → (crockfordVal y).isSome →
      crockfordVal x ≠ crockfordVal y → ¬ Accepted (l ++ y :: r)) ∧
    ∀ (l r : Bytes) (x y : UInt8) (v w : Nat), Accepted (l ++ x :: y :: r) → crockfordVal x = some v →
      crockfordVal y = some w → v ≠ w → ¬ (v = 0 ∧ w = 31) ∧ ¬ (v = 31 ∧ w = 0) → ¬ Accepted (l ++ y :: x :: r) :=
  ⟨fun n _ hfp => from_toString n hfp, fun n t _ hfp => from_toStringWithIndex n t hfp,
    fun _ _ _ _ h hx hy hne => not_accepted_replaced h hx hy hne,
    fun _ _ _ _ _ _ h hx hy hne hpair => not_accepted_swapped h hx hy hne hpair⟩

/-- A typed `5` for the `4`, and the `2` and the `1` swapped. -/
theorem accountNumber_codec_example :
    AccountNumber.fromString ((⟨4821, 7⟩ : AccountNumber).toString 0xABCDE) = some (⟨4821, 7⟩, 0xABCDE) ∧
    ¬ Accepted (chr '5' :: ((⟨4821, 7⟩ : AccountNumber).toString 0xABCDE).drop 1) ∧
    ¬ Accepted (ascii "48" ++ chr '1' :: chr '2' :: ((⟨4821, 7⟩ : AccountNumber).toString 0xABCDE).drop 4) := by
  have h := accountNumber_codec.1 ⟨4821, 7⟩ 0xABCDE (by decide)
  have hacc : Accepted ((⟨4821, 7⟩ : AccountNumber).toString 0xABCDE) := .inl (by rw [h.1]; rfl)
  refine ⟨h.1, ?_, ?_⟩
  · exact accountNumber_codec.2.2.1 [] _ (chr '4') (chr '5') hacc (by decide) (by decide) (by decide)
  · exact accountNumber_codec.2.2.2 (ascii "48") _ (chr '2') (chr '1') 2 1 hacc (by decide) (by decide) (by decide)
      (by decide)

end Discrete.L1
