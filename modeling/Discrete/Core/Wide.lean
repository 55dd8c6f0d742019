import Mathlib.Data.UInt
import Mathlib.Tactic.Ring
import Mathlib.Tactic.Linarith

/-!
# 128-bit arithmetic on 64-bit words

Schoolbook multiplication of two 64-bit words into a (high, low) pair and long
division of such a pair by a 32-bit word, digit by digit in base `2 ^ 32`.
`wide` is the number a pair stands for; `mul128_wide` and `div128_32_wide` say
that the word-level code computes the product and the quotient of it.
-/
namespace Discrete.Wide

def hiDword (v : UInt64) : UInt64 := v >>> 32
def loDword (v : UInt64) : UInt64 := v &&& 0xFFFFFFFF

/-- The number a (high, low) pair of words stands for. -/
def wide (x : UInt64 × UInt64) : Nat := x.1.toNat * 2 ^ 64 + x.2.toNat

/-- The product as (high, low). -/
def mul128 (multiplier multiplicand : UInt64) : UInt64 × UInt64 :=
  let a := hiDword multiplier
  let b := loDword multiplier
  let c := hiDword multiplicand
  let d := loDword multiplicand
  let ac := a * c
  let ad := a * d
  let bc := b * c
  let bd := b * d
  let adbc := ad + bc
  let adbcCarry : UInt64 := if adbc < ad then 1 else 0
  let productLo := bd + (adbc <<< 32)
  let productLoCarry : UInt64 := if productLo < bd then 1 else 0
  (ac + (adbc >>> 32) + (adbcCarry <<< 32) + productLoCarry, productLo)

/-- One digit of the long division: quotient digit and new remainder. -/
def divWithReminder (dividend : UInt64) (divisor remainder : UInt32) : UInt64 × UInt32 :=
  let dividend := dividend ||| (remainder.toUInt64 <<< 32)
  (dividend / divisor.toUInt64, (dividend % divisor.toUInt64).toUInt32)

/-- The quotient as (high, low), and the remainder. -/
def div128By32 (dividend : UInt64 × UInt64) (divisor : UInt32) : (UInt64 × UInt64) × UInt32 :=
  let d3 := divWithReminder (hiDword dividend.1) divisor 0
  let d2 := divWithReminder (loDword dividend.1) divisor d3.2
  let d1 := divWithReminder (hiDword dividend.2) divisor d2.2
  let d0 := divWithReminder (loDword dividend.2) divisor d1.2
  (((d3.1 <<< 32) ||| d2.1, (d1.1 <<< 32) ||| d0.1), d0.2)

/-! ## Words as numbers -/

theorem hiDword_toNat (v : UInt64) : (hiDword v).toNat = v.toNat / 2 ^ 32 := by
  rw [hiDword, UInt64.toNat_shiftRight, Nat.shiftRight_eq_div_pow]
  rfl

theorem loDword_toNat (v : UInt64) : (loDword v).toNat = v.toNat % 2 ^ 32 := by
  rw [loDword, UInt64.toNat_and]
  exact Nat.and_two_pow_sub_one_eq_mod _ 32

theorem shl32_toNat (v : UInt64) : (v <<< 32).toNat = v.toNat % 2 ^ 32 * 2 ^ 32 := by
  rw [UInt64.toNat_shiftLeft, Nat.shiftLeft_eq]
  show v.toNat * 2 ^ 32 % 2 ^ 64 = _
  omega

/-- A digit above a word below `2 ^ 32`. -/
theorem shl32_or_toNat {q r : UInt64} (hq : q.toNat < 2 ^ 32) (hr : r.toNat < 2 ^ 32) :
    ((q <<< 32) ||| r).toNat = q.toNat * 2 ^ 32 + r.toNat := by
  rw [UInt64.toNat_or, shl32_toNat, Nat.mod_eq_of_lt hq, Nat.mul_comm q.toNat, ← Nat.two_pow_add_eq_or_of_lt hr]

/-- A carry bit out of a 64-bit addition. -/
theorem add_carry (a b : UInt64) :
    (a + b).toNat + 2 ^ 64 * (if a + b < a then (1 : UInt64) else 0).toNat = a.toNat + b.toNat := by
  have ha := a.toNat_lt
  have hb := b.toNat_lt
  have h : (a + b < a) ↔ (a.toNat + b.toNat) % 2 ^ 64 < a.toNat := by
    rw [UInt64.lt_iff_toNat_lt, UInt64.toNat_add]
  split
  · rename_i hlt
    rw [h] at hlt
    rw [UInt64.toNat_add, UInt64.toNat_one]
    omega
  · rename_i hlt
    rw [h] at hlt
    rw [UInt64.toNat_add, UInt64.toNat_zero]
    omega

theorem mul_toNat_of_lt {a b : UInt64} (ha : a.toNat < 2 ^ 32) (hb : b.toNat < 2 ^ 32) :
    (a * b).toNat = a.toNat * b.toNat := by
  rw [UInt64.toNat_mul]
  apply Nat.mod_eq_of_lt
  calc a.toNat * b.toNat ≤ (2 ^ 32 - 1) * (2 ^ 32 - 1) := Nat.mul_le_mul (by omega) (by omega)
    _ < 2 ^ 64 := by decide

/-! ## Product -/

theorem mul128_wide (x y : UInt64) : wide (mul128 x y) = x.toNat * y.toNat := by
  have hx := x.toNat_lt
  have hy := y.toNat_lt
  have ha : (hiDword x).toNat < 2 ^ 32 := by rw [hiDword_toNat]; omega
  have hb : (loDword x).toNat < 2 ^ 32 := by rw [loDword_toNat]; omega
  have hc : (hiDword y).toNat < 2 ^ 32 := by rw [hiDword_toNat]; omega
  have hd : (loDword y).toNat < 2 ^ 32 := by rw [loDword_toNat]; omega
  have ex : x.toNat = (hiDword x).toNat * 2 ^ 32 + (loDword x).toNat := by
    rw [hiDword_toNat, loDword_toNat]; omega
  have ey : y.toNat = (hiDword y).toNat * 2 ^ 32 + (loDword y).toNat := by
    rw [hiDword_toNat, loDword_toNat]; omega
  -- the four partial products, and the two additions with their carries
  have hac := mul_toNat_of_lt ha hc
  have had := mul_toNat_of_lt ha hd
  have hbc := mul_toNat_of_lt hb hc
  have hbd := mul_toNat_of_lt hb hd
  have c1 := add_carry (hiDword x * loDword y) (loDword x * hiDword y)
  have c2 := add_carry (loDword x * loDword y)
    ((hiDword x * loDword y + loDword x * hiDword y) <<< 32)
  rw [shl32_toNat] at c2
  simp only [wide, mul128]
  generalize hk1 : (if hiDword x * loDword y + loDword x * hiDword y < hiDword x * loDword y
    then (1 : UInt64) else 0) = k1 at *
  generalize hk2 : (if loDword x * loDword y + ((hiDword x * loDword y + loDword x * hiDword y) <<< 32)
    < loDword x * loDword y then (1 : UInt64) else 0) = k2 at *
  have hk1' : k1.toNat ≤ 1 := by rw [← hk1]; split <;> simp
  have hk2' : k2.toNat ≤ 1 := by rw [← hk2]; split <;> simp
  generalize hiDword x * loDword y + loDword x * hiDword y = adbc at *
  generalize loDword x * loDword y + (adbc <<< 32) = lo at *
  have hmid : (adbc >>> 32).toNat = adbc.toNat / 2 ^ 32 := hiDword_toNat adbc
  have hcar : (k1 <<< 32).toNat = k1.toNat * 2 ^ 32 := by
    rw [shl32_toNat, Nat.mod_eq_of_lt (by omega)]
  have hbound : x.toNat * y.toNat < 2 ^ 128 := by
    calc x.toNat * y.toNat ≤ (2 ^ 64 - 1) * (2 ^ 64 - 1) := Nat.mul_le_mul (by omega) (by omega)
      _ < 2 ^ 128 := by decide
  have hprod : x.toNat * y.toNat = (hiDword x * hiDword y).toNat * 2 ^ 64 +
      ((hiDword x * loDword y).toNat + (loDword x * hiDword y).toNat) * 2 ^ 32 + (loDword x * loDword y).toNat := by
    rw [hac, had, hbc, hbd, ex, ey]
    ring
  rw [UInt64.toNat_add, UInt64.toNat_add, UInt64.toNat_add, hmid, hcar]
  rw [hprod] at hbound ⊢
  generalize (hiDword x * hiDword y).toNat = ac at *
  generalize (hiDword x * loDword y).toNat = ad at *
  generalize (loDword x * hiDword y).toNat = bc at *
  generalize (loDword x * loDword y).toNat = bd at *
  clear hac had hbc hbd ex ey ha hb hc hd hk1 hk2 hx hy hprod hmid hcar
  have := lo.toNat_lt
  have := adbc.toNat_lt
  omega

/-! ## Quotient -/

/-- One division step, as numbers: the remainder stays below the divisor, and the
quotient is one base-`2 ^ 32` digit. -/
theorem divWithReminder_spec {x : UInt64} {d r : UInt32} (hd : 0 < d.toNat) (hx : x.toNat < 2 ^ 32)
    (hr : r.toNat < d.toNat) :
    (divWithReminder x d r).1.toNat * d.toNat + (divWithReminder x d r).2.toNat = r.toNat * 2 ^ 32 + x.toNat ∧
      (divWithReminder x d r).2.toNat < d.toNat ∧ (divWithReminder x d r).1.toNat < 2 ^ 32 := by
  have hd32 := d.toNat_lt
  have hr32 := r.toNat_lt
  have hv : (x ||| (r.toUInt64 <<< 32)).toNat = r.toNat * 2 ^ 32 + x.toNat := by
    rw [UInt64.or_comm, shl32_or_toNat (by simpa using hr32) hx, UInt32.toNat_toUInt64]
  have hmod : (r.toNat * 2 ^ 32 + x.toNat) % d.toNat < d.toNat := Nat.mod_lt _ hd
  have hrem : ((x ||| (r.toUInt64 <<< 32)) % d.toUInt64).toUInt32.toNat = (r.toNat * 2 ^ 32 + x.toNat) % d.toNat := by
    rw [UInt64.toNat_toUInt32, UInt64.toNat_mod, hv, UInt32.toNat_toUInt64]
    exact Nat.mod_eq_of_lt (by omega)
  have hquot : ((x ||| (r.toUInt64 <<< 32)) / d.toUInt64).toNat = (r.toNat * 2 ^ 32 + x.toNat) / d.toNat := by
    rw [UInt64.toNat_div, hv, UInt32.toNat_toUInt64]
  simp only [divWithReminder, hrem, hquot]
  refine ⟨?_, hmod, ?_⟩
  · rw [Nat.mul_comm]
    exact Nat.div_add_mod _ _
  · rw [Nat.div_lt_iff_lt_mul hd]
    calc r.toNat * 2 ^ 32 + x.toNat < r.toNat * 2 ^ 32 + 2 ^ 32 := by omega
      _ = (r.toNat + 1) * 2 ^ 32 := by ring
      _ ≤ d.toNat * 2 ^ 32 := Nat.mul_le_mul_right _ hr
      _ = 2 ^ 32 * d.toNat := Nat.mul_comm _ _

theorem div128By32_wide (n : UInt64 × UInt64) {d : UInt32} (hd : 0 < d.toNat) :
    wide (div128By32 n d).1 = wide n / d.toNat := by
  have h1 := n.1.toNat_lt
  have h2 := n.2.toNat_lt
  have b3 : (hiDword n.1).toNat < 2 ^ 32 := by rw [hiDword_toNat]; omega
  have b2 : (loDword n.1).toNat < 2 ^ 32 := by rw [loDword_toNat]; omega
  have b1 : (hiDword n.2).toNat < 2 ^ 32 := by rw [hiDword_toNat]; omega
  have b0 : (loDword n.2).toNat < 2 ^ 32 := by rw [loDword_toNat]; omega
  have e1 : n.1.toNat = (hiDword n.1).toNat * 2 ^ 32 + (loDword n.1).toNat := by
    rw [hiDword_toNat, loDword_toNat]; omega
  have e2 : n.2.toNat = (hiDword n.2).toNat * 2 ^ 32 + (loDword n.2).toNat := by
    rw [hiDword_toNat, loDword_toNat]; omega
  obtain ⟨s3, r3, q3⟩ := divWithReminder_spec (r := 0) hd b3 (by simpa using hd)
  obtain ⟨s2, r2, q2⟩ := divWithReminder_spec hd b2 r3
  obtain ⟨s1, r1, q1⟩ := divWithReminder_spec hd b1 r2
  obtain ⟨s0, r0, q0⟩ := divWithReminder_spec hd b0 r1
  simp only [wide, div128By32]
  rw [shl32_or_toNat q3 q2, shl32_or_toNat q1 q0]
  generalize divWithReminder (hiDword n.1) d 0 = t3 at *
  generalize divWithReminder (loDword n.1) d t3.2 = t2 at *
  generalize divWithReminder (hiDword n.2) d t2.2 = t1 at *
  generalize divWithReminder (loDword n.2) d t1.2 = t0 at *
  symm
  rw [e1, e2, Nat.div_eq_iff hd]
  have hsum : ((hiDword n.1).toNat * 2 ^ 32 + (loDword n.1).toNat) * 2 ^ 64 +
      ((hiDword n.2).toNat * 2 ^ 32 + (loDword n.2).toNat) =
      ((t3.1.toNat * 2 ^ 32 + t2.1.toNat) * 2 ^ 64 + (t1.1.toNat * 2 ^ 32 + t0.1.toNat)) * d.toNat + t0.2.toNat := by
    have s3' : (hiDword n.1).toNat = t3.1.toNat * d.toNat + t3.2.toNat := by
      simpa using s3.symm
    have s2' : (loDword n.1).toNat + t3.2.toNat * 2 ^ 32 = t2.1.toNat * d.toNat + t2.2.toNat := by
      omega
    have s1' : (hiDword n.2).toNat + t2.2.toNat * 2 ^ 32 = t1.1.toNat * d.toNat + t1.2.toNat := by
      omega
    have s0' : (loDword n.2).toNat + t1.2.toNat * 2 ^ 32 = t0.1.toNat * d.toNat + t0.2.toNat := by
      omega
    have expand : ((t3.1.toNat * 2 ^ 32 + t2.1.toNat) * 2 ^ 64 + (t1.1.toNat * 2 ^ 32 + t0.1.toNat)) *
        d.toNat = t3.1.toNat * d.toNat * 2 ^ 96 + t2.1.toNat * d.toNat * 2 ^ 64 +
          t1.1.toNat * d.toNat * 2 ^ 32 + t0.1.toNat * d.toNat := by ring
    rw [expand]
    omega
  omega

end Discrete.Wide
