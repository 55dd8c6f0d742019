import Discrete.L3Ledger.Currency

/-!
# Word arithmetic against integers (`Difficulty.cpp`, `CryptoNoteBasicImpl.cpp`)

Two consensus decisions are taken on 128-bit and 256-bit products that are formed from
64-bit words by hand.

* `check_hash_exact`: the proof of work is accepted exactly when hash times difficulty stays
  below `2 ^ 256`, so a smaller hash or a smaller difficulty never turns an accepted proof
  away.
* `penalty_exact`: over sizes of 32 bits the size penalty is the rounded-down quotient by the
  square of the median, pays no more for a larger block, and none of the assertions on its way
  fails. `getBlockReward` admits larger medians, and there the first assertion does
  (`penalty_wide_median`).
-/
namespace Discrete.L3
open UInt64 L1 L2 Wide Codec

/-! ## Proof of work -/

/-- The number a hash stands for, read as little-endian words. -/
def hashValue (h : Hash) : Nat := leValue h.val

theorem hashWord_toNat (h : Hash) (i : Nat) : (hashWord h i).toNat = leValue ((h.val.drop (8 * i)).take 8) := by
  have hlt := leValue_lt ((h.val.drop (8 * i)).take 8)
  have hlen : ((h.val.drop (8 * i)).take 8).length ≤ 8 := List.length_take_le _ _
  have hpow : 256 ^ ((h.val.drop (8 * i)).take 8).length ≤ 256 ^ 8 := Nat.pow_le_pow_right (by decide) hlen
  exact toNat_ofNat_of_lt' (lt_of_lt_of_le hlt hpow)

/-- Eight bytes off a number that has them. -/
theorem leValue_drop {l : Bytes} {i : Nat} (h : 8 * i + 8 ≤ l.length) : leValue (l.drop (8 * i)) =
    leValue ((l.drop (8 * i)).take 8) + 2 ^ 64 * leValue (l.drop (8 * (i + 1))) := by
  conv_lhs => rw [← List.take_append_drop 8 (l.drop (8 * i))]
  rw [leValue_append, List.length_take_of_le (by rw [List.length_drop]; omega), List.drop_drop]
  rfl

/-- The four words of a hash. -/
theorem hashValue_words (h : Hash) : hashValue h = (hashWord h 0).toNat + 2 ^ 64 * ((hashWord h 1).toNat +
    2 ^ 64 * ((hashWord h 2).toNat + 2 ^ 64 * (hashWord h 3).toNat)) := by
  have hlen : h.val.length = 32 := h.property
  have hend : leValue (h.val.drop (8 * 4)) = 0 := by
    rw [List.drop_eq_nil_of_le (by omega)]
    rfl
  have h0 : leValue h.val = _ := leValue_drop (i := 0) (by omega)
  rw [hashValue, h0, leValue_drop (i := 1) (by omega), leValue_drop (i := 2) (by omega),
    leValue_drop (i := 3) (by omega), hend, hashWord_toNat, hashWord_toNat, hashWord_toNat, hashWord_toNat]
  simp only [Nat.mul_zero, Nat.add_zero]

/-- The product that `__int128` gives where the compiler has it is the one `mul128` puts
together.
mirrors Difficulty.cpp:35-40 -/
theorem carryAdd_iff (a b : UInt64) : carryAdd a b = true ↔ 2 ^ 64 ≤ a.toNat + b.toNat := by
  have ha := a.toNat_lt
  have hb := b.toNat_lt
  rw [carryAdd, decide_eq_true_iff, lt_iff_toNat_lt, UInt64.toNat_add]
  omega

/-- A sum that wraps is at most `2 ^ 64 - 2`, so an incoming carry matters only at the top word. -/
theorem carryAdc_iff (a b : UInt64) (c : Bool) : carryAdc a b c = true ↔ 2 ^ 64 ≤ a.toNat + b.toNat + c.toNat := by
  have ha := a.toNat_lt
  have hb := b.toNat_lt
  have htop : a + b = 0xFFFFFFFFFFFFFFFF ↔ (a.toNat + b.toNat) % 2 ^ 64 = 2 ^ 64 - 1 := by
    rw [← UInt64.toNat_inj, UInt64.toNat_add]
    rfl
  rw [carryAdc, Bool.or_eq_true, Bool.and_eq_true, decide_eq_true_iff, decide_eq_true_iff,
    lt_iff_toNat_lt, UInt64.toNat_add, htop]
  cases c
  · simp only [Bool.false_eq_true, false_and, or_false, Bool.toNat_false]
    omega
  · simp only [true_and, Bool.toNat_true]
    omega

/-- The words above the lowest one, with the carries as numbers. -/
theorem carryAdd_toNat (a b : UInt64) : (carryAdd a b).toNat = (a.toNat + b.toNat) / 2 ^ 64 := by
  have ha := a.toNat_lt
  have hb := b.toNat_lt
  have h := carryAdd_iff a b
  cases hc : carryAdd a b <;> simp only [hc, Bool.false_eq_true, true_iff, false_iff] at h <;>
    simp only [Bool.toNat_false, Bool.toNat_true] <;> omega

theorem carryAdc_toNat (a b : UInt64) (c : Bool) : (carryAdc a b c).toNat = (a.toNat + b.toNat + c.toNat) / 2 ^ 64 := by
  have ha := a.toNat_lt
  have hb := b.toNat_lt
  have hle := Bool.toNat_le c
  have h := carryAdc_iff a b c
  cases hc : carryAdc a b c <;> simp only [hc, Bool.false_eq_true, true_iff, false_iff] at h <;>
    simp only [Bool.toNat_false, Bool.toNat_true] <;> omega

theorem checkHash_iff (h : Hash) (d : UInt64) : checkHash h d = true ↔ hashValue h * d.toNat < 2 ^ 256 := by
  have p0 := mul128_wide (hashWord h 0) d
  have p1 := mul128_wide (hashWord h 1) d
  have p2 := mul128_wide (hashWord h 2) d
  have p3 := mul128_wide (hashWord h 3) d
  unfold wide at p0 p1 p2 p3
  have hprod : hashValue h * d.toNat = (hashWord h 0).toNat * d.toNat + 2 ^ 64 * ((hashWord h 1).toNat * d.toNat) +
      2 ^ 128 * ((hashWord h 2).toNat * d.toNat) + 2 ^ 192 * ((hashWord h 3).toNat * d.toNat) := by
    rw [hashValue_words]
    ring
  rw [hprod, ← p0, ← p1, ← p2, ← p3]
  unfold checkHash
  dsimp only
  have c1 := carryAdd_toNat (mul128 (hashWord h 0) d).1 (mul128 (hashWord h 1) d).2
  have c2 := carryAdc_toNat (mul128 (hashWord h 1) d).1 (mul128 (hashWord h 2) d).2
    (carryAdd (mul128 (hashWord h 0) d).1 (mul128 (hashWord h 1) d).2)
  generalize carryAdd (mul128 (hashWord h 0) d).1 (mul128 (hashWord h 1) d).2 = k1 at *
  generalize carryAdc (mul128 (hashWord h 1) d).1 (mul128 (hashWord h 2) d).2 k1 = k2 at *
  generalize mul128 (hashWord h 0) d = w0 at *
  generalize mul128 (hashWord h 1) d = w1 at *
  generalize mul128 (hashWord h 2) d = w2 at *
  generalize mul128 (hashWord h 3) d = w3 at *
  have l0 := w0.2.toNat_lt
  have l1 := w1.2.toNat_lt
  have l2 := w2.2.toNat_lt
  have l3 := w3.2.toNat_lt
  -- the lowest word never carries; each further word adds the high part below it
  split
  · rename_i hhigh
    have hpos : 0 < w3.1.toNat := Nat.pos_of_ne_zero fun hz => hhigh (UInt64.toNat_inj.mp hz)
    simp only [Bool.false_eq_true, false_iff]
    omega
  · rename_i hhigh
    have hzero : w3.1.toNat = 0 := by
      rw [not_not.mp hhigh]
      rfl
    rw [Bool.not_eq_true', ← Bool.not_eq_true, carryAdc_iff]
    omega

/-- The comparison is exact and antitone. -/
theorem check_hash_exact :
    (∀ (h : Hash) (d : UInt64), checkHash h d = true ↔ hashValue h * d.toNat < 2 ^ 256) ∧
    ∀ (h h' : Hash) (d d' : UInt64), hashValue h' ≤ hashValue h → d' ≤ d → checkHash h d = true →
      checkHash h' d' = true := by
  refine ⟨checkHash_iff, fun h h' d d' hh hd hok => ?_⟩
  rw [checkHash_iff] at hok ⊢
  exact lt_of_le_of_lt (Nat.mul_le_mul hh (le_iff_toNat_le.mp hd)) hok

/-- The hash zero meets every difficulty. -/
theorem check_hash_exact_zero : checkHash nullHash 7 = true ∧ checkHash nullHash 3 = true :=
  ⟨(check_hash_exact.1 nullHash 7).mpr (by decide),
    check_hash_exact.2 nullHash nullHash 7 3 le_rfl (by decide) (by decide)⟩

/-! ## Size penalty -/

/-- `mul128` with its assertion.
mirrors int-util.h:66-92 -/
def mul128Checked (multiplier multiplicand : UInt64) : Option (UInt64 × UInt64) :=
  let product := mul128 multiplier multiplicand
  if hiDword multiplier * hiDword multiplicand ≤ product.1 then some product else none

/-- `getPenalizedAmount` with its assertions: `none` where one fails.
mirrors CryptoNoteBasicImpl.cpp:37-67 -/
def getPenalizedAmountChecked (amount : UInt64) (medianSize currentBlockSize : Nat) : Option UInt64 :=
  if currentBlockSize ≤ 2 * medianSize ∧ medianSize ≤ 0xFFFFFFFF ∧ currentBlockSize ≤ 0xFFFFFFFF then
    if amount = 0 then some 0
    else if currentBlockSize ≤ medianSize then some amount
    else
      (mul128Checked amount (UInt64.ofNat (2 * medianSize - currentBlockSize) * UInt64.ofNat currentBlockSize)).bind
        fun product =>
          let once := (div128By32 product (UInt32.ofNat medianSize)).1
          let penalized := (div128By32 once (UInt32.ofNat medianSize)).1
          if penalized.1 = 0 ∧ penalized.2 < amount then some penalized.2 else none
  else none

/-- The high halves multiply to no more than the high word. -/
theorem mul128Checked_eq (x y : UInt64) : mul128Checked x y = some (mul128 x y) := by
  have hx := x.toNat_lt
  have hy := y.toNat_lt
  have hwide := mul128_wide x y
  unfold wide at hwide
  have hlo := (mul128 x y).2.toNat_lt
  have hxh : (hiDword x).toNat < 2 ^ 32 := by rw [hiDword_toNat]; omega
  have hyh : (hiDword y).toNat < 2 ^ 32 := by rw [hiDword_toNat]; omega
  have hparts : (hiDword x).toNat * (hiDword y).toNat * 2 ^ 64 ≤ x.toNat * y.toNat := by
    have h1 : (hiDword x).toNat * 2 ^ 32 ≤ x.toNat := hiDword_toNat x ▸ Nat.div_mul_le_self _ _
    have h2 : (hiDword y).toNat * 2 ^ 32 ≤ y.toNat := hiDword_toNat y ▸ Nat.div_mul_le_self _ _
    rw [show (2 : Nat) ^ 64 = 2 ^ 32 * 2 ^ 32 from rfl, Nat.mul_mul_mul_comm]
    exact Nat.mul_le_mul h1 h2
  have hle : hiDword x * hiDword y ≤ (mul128 x y).1 := by
    rw [le_iff_toNat_le, mul_toNat_of_lt hxh hyh]
    omega
  exact if_pos hle

/-- What the two divisions leave of an amount, as a number. -/
def penalized (amount m s : Nat) : Nat := if s ≤ m then amount else amount * s * (2 * m - s) / (m * m)

/-- Past the median the product of the size and what is left of it falls. -/
theorem penalty_antitone {m s t : Nat} (hm : m ≤ s) (hst : s ≤ t) (ht : t ≤ 2 * m) :
    t * (2 * m - t) ≤ s * (2 * m - s) := by
  obtain ⟨a, rfl⟩ : ∃ a, s = m + a := ⟨s - m, by omega⟩
  obtain ⟨b, rfl⟩ : ∃ b, t = m + a + b := ⟨t - (m + a), by omega⟩
  obtain ⟨c, rfl⟩ : ∃ c, m = a + b + c := ⟨m - a - b, by omega⟩
  rw [show 2 * (a + b + c) - (a + b + c + a + b) = c by omega, show 2 * (a + b + c) - (a + b + c + a) = b + c by omega]
  nlinarith

theorem penalized_antitone (amount : Nat) {m s t : Nat} (hst : s ≤ t) (ht : t ≤ 2 * m) :
    penalized amount m t ≤ penalized amount m s := by
  unfold penalized
  split_ifs with htm hsm hsm
  · exact le_rfl
  · omega
  · apply Nat.div_le_of_le_mul
    rw [Nat.mul_assoc, Nat.mul_comm (m * m)]
    apply Nat.mul_le_mul_left
    rw [Nat.mul_comm]
    exact penalty_le ht
  · apply Nat.div_le_div_right
    rw [Nat.mul_assoc, Nat.mul_assoc]
    exact Nat.mul_le_mul_left _ (penalty_antitone (by omega) hst ht)

theorem getPenalizedAmount_eq (amount : UInt64) {m s : Nat} (hm : m < 2 ^ 32) (hs : s ≤ 2 * m) :
    (getPenalizedAmount amount m s).toNat = penalized amount.toNat m s := by
  unfold penalized
  split
  · rename_i hle
    unfold getPenalizedAmount
    split_ifs with h0
    · rw [h0]
    · rfl
  · rename_i hgt
    rw [getPenalizedAmount_toNat hm (by omega) hs, Nat.div_div_eq_div_mul, Nat.mul_comm (2 * m - s) s, ← Nat.mul_assoc]

/-- Something is taken from every amount. -/
theorem penalized_lt {amount m s : Nat} (hpos : 0 < amount) (hlt : m < s) (hs : s ≤ 2 * m) :
    penalized amount m s < amount := by
  obtain ⟨a, rfl⟩ : ∃ a, s = m + a := ⟨s - m, by omega⟩
  obtain ⟨c, rfl⟩ : ∃ c, m = a + c := ⟨m - a, by omega⟩
  have hcut : (a + c + a) * (2 * (a + c) - (a + c + a)) < (a + c) * (a + c) := by
    rw [show 2 * (a + c) - (a + c + a) = c by omega]
    have : 0 < a * a := Nat.mul_pos (by omega) (by omega)
    nlinarith
  rw [penalized, if_neg (by omega), Nat.div_lt_iff_lt_mul (Nat.mul_pos (by omega) (by omega)), Nat.mul_assoc]
  exact Nat.mul_lt_mul_of_pos_left hcut hpos

theorem getPenalizedAmountChecked_eq (amount : UInt64) {m s : Nat} (hm : m < 2 ^ 32) (hs32 : s < 2 ^ 32)
    (hs : s ≤ 2 * m) : getPenalizedAmountChecked amount m s = some (getPenalizedAmount amount m s) := by
  have hnum := getPenalizedAmount_eq amount hm hs
  unfold getPenalizedAmountChecked
  rw [if_pos ⟨hs, by omega, by omega⟩]
  unfold getPenalizedAmount at hnum ⊢
  by_cases h0 : amount = 0
  · rw [if_pos h0, if_pos h0]
  by_cases hle : s ≤ m
  · rw [if_neg h0, if_neg h0, if_pos hle, if_pos hle]
  have hpos : 0 < amount.toNat := Nat.pos_of_ne_zero fun hz => h0 (UInt64.toNat_inj.mp hz)
  have hlt := penalized_lt hpos (not_le.mp hle) hs
  -- the quotient is below the amount, so its high word is zero
  have hfit := lt_of_le_of_lt (penalty_quotient_le amount.toNat hs) amount.toNat_lt
  rw [← penalty_wide amount hm (not_le.mp hle) hs] at hfit
  rw [if_neg h0, if_neg hle] at hnum ⊢
  rw [if_neg h0, if_neg hle, mul128Checked_eq, Option.bind_some]
  dsimp only at hnum ⊢
  refine if_pos ⟨UInt64.toNat_inj.mp ?_, lt_iff_toNat_lt.mpr (hnum ▸ hlt)⟩
  unfold wide at hfit
  rw [UInt64.toNat_zero]
  omega

/-- Over 32-bit sizes no assertion fails, and the penalty is the rounded-down quotient, at most
the amount and less for a larger block. -/
theorem penalty_exact (amount : UInt64) {m s : Nat} (hm : m < 2 ^ 32) (hs32 : s < 2 ^ 32) (hs : s ≤ 2 * m) :
    getPenalizedAmountChecked amount m s = some (getPenalizedAmount amount m s) ∧
    (s ≤ m → getPenalizedAmount amount m s = amount) ∧
    (m < s → (getPenalizedAmount amount m s).toNat = amount.toNat * s * (2 * m - s) / m ^ 2 ∧
      (getPenalizedAmount amount m s).toNat = amount.toNat * s * (2 * m - s) / m / m) ∧
    getPenalizedAmount amount m s ≤ amount ∧
    ∀ t, s ≤ t → t ≤ 2 * m → getPenalizedAmount amount m t ≤ getPenalizedAmount amount m s := by
  refine ⟨getPenalizedAmountChecked_eq amount hm hs32 hs, fun hle => ?_, fun hlt => ?_, ?_, fun t hst ht => ?_⟩
  · rw [← UInt64.toNat_inj, getPenalizedAmount_eq amount hm hs, penalized, if_pos hle]
  · rw [getPenalizedAmount_eq amount hm hs, penalized, if_neg (by omega), Nat.div_div_eq_div_mul, Nat.pow_two]
    exact ⟨rfl, rfl⟩
  · exact le_iff_toNat_le.mpr (getPenalizedAmount_le amount hm hs)
  · rw [le_iff_toNat_le, getPenalizedAmount_eq amount hm ht, getPenalizedAmount_eq amount hm hs]
    exact penalized_antitone _ hst ht

/-- A block one and a half times the size of the smallest median. -/
theorem penalty_exact_half : getPenalizedAmountChecked 8010 1000000 1500000 = some 6007 ∧
    getPenalizedAmount 8010 1000000 1500001 ≤ getPenalizedAmount 8010 1000000 1500000 := by
  obtain ⟨hchecked, -, -, -, hanti⟩ := penalty_exact 8010 (m := 1000000) (s := 1500000) (by decide) (by decide) (by decide)
  refine ⟨?_, hanti 1500001 (by decide) (by decide)⟩
  rw [hchecked]
  decide

/-- A median of 33 bits: `getBlockReward` answers, the assertion on the median fails. -/
theorem penalty_wide_median : (getBlockReward (2 ^ 32) 0 0 0).isSome = true ∧
    getPenalizedAmountChecked (calculateReward 0) (2 ^ 32) 0 = none := by
  decide

end Discrete.L3
