import Mathlib.Tactic.Positivity
import Discrete.L3Ledger.Currency

/-!
# The retarget formula and its machine words (`Currency.cpp`)

`nextDifficulty` multiplies window sums in 64 bits. Its own comment is "Prevent
round off error for small D and overflow for large D": an average difficulty over
`2000000 * N * N * T` is divided before it is multiplied. `exactDifficulty` is the
same formula over unbounded integers, and `RetargetFits` says which products
leave the word.

* `nextDifficultyChecked_eq`: with every division guarded the function still
  answers, so no divisor is ever zero.
* `retarget_exact_iff`: over timestamps that do not wrap, the words give the value
  of the formula exactly when the products fit.
* `retarget_wraps`: at `N = 60`, `T = 90` the guard admits averages up to `648e9`,
  but the product leaves the word from about `565.7e9` on.
* `retarget_bounded`: whatever the timestamps are, an average whose products fit is
  followed by a difficulty between about a sixth of it and the clamped quotient.
-/
namespace Discrete.L3
open UInt64 Nat List L1 L2 Wide

/-! ## The formula over unbounded integers -/

/-- `N`, the number of solve times the window holds. -/
def retargetWindow (timestamps cumulativeDifficulties : List UInt64) : Nat :=
  min difficultyWindow (min timestamps.length cumulativeDifficulties.length - 1)

/-- One turn of the loop over solve times, with a previous timestamp that may be negative. -/
def exactTurn (timestamps : List UInt64) (s : Nat × Int) (i : Nat) : Nat × Int :=
  let t : Int := (timestamps.getD i 0).toNat
  let thisTimestamp := if t > s.2 then t else s.2 + 1
  (s.1 + i * min (6 * difficultyTarget.toNat) (thisTimestamp - s.2).toNat, thisTimestamp)

def exactTurns (timestamps : List UInt64) (n : Nat) : Nat × Int :=
  (List.range' 1 n).foldl (exactTurn timestamps)
    (0, ((timestamps.getD 0 0).toNat : Int) - difficultyTarget.toNat)

/-- `L` after its lower clamp. -/
def exactSum (timestamps : List UInt64) (n : Nat) : Nat :=
  max (exactTurns timestamps n).1 (n * n * difficultyTarget.toNat / 20)

/-- `avg_D` -/
def exactAverage (cumulativeDifficulties : List UInt64) (n : Nat) : Nat :=
  ((cumulativeDifficulties.getD n 0).toNat - (cumulativeDifficulties.getD 0 0).toNat) / n

def exactNext (n avgD L : Nat) : Nat :=
  if avgD > 2000000 * n * n * difficultyTarget.toNat then
    avgD / (200 * L) * (n * (n + 1) * difficultyTarget.toNat * 99)
  else avgD * n * (n + 1) * difficultyTarget.toNat * 99 / (200 * L)

def exactRound (nextD : Nat) : Nat :=
  match [1000000000, 100000000, 10000000, 1000000, 100000, 10000, 1000, 100, 10].find?
      fun i : Nat => nextD > i * 100 with
  | some i => (nextD + i / 2) / i * i
  | none => nextD

def floorDifficulty (testnet : Bool) : UInt64 := if testnet then 1 else max 1 minimumDifficulty

/-- The formula of `nextDifficulty` with no word in it. -/
def exactDifficulty (testnet : Bool) (timestamps cumulativeDifficulties : List UInt64) : Nat :=
  let n := retargetWindow timestamps cumulativeDifficulties
  if n = 0 then (floorDifficulty testnet).toNat
  else if exactSum timestamps n = 0 then (floorDifficulty testnet).toNat
  else if exactAverage cumulativeDifficulties n = 0 then (floorDifficulty testnet).toNat
  else max (floorDifficulty testnet).toNat
    (exactRound (exactNext n (exactAverage cumulativeDifficulties n) (exactSum timestamps n)))

/-! ## The conditions -/

/-- No timestamp of the window lies within `T` of zero at its start, nor so close to
`2^64` that the out-of-sequence correction could pass it. -/
def TimestampsFit (timestamps : List UInt64) (n : Nat) : Prop :=
  difficultyTarget ≤ timestamps.getD 0 0 ∧ ∀ i ≤ n, (timestamps.getD i 0).toNat + n < 2 ^ 64

instance (timestamps : List UInt64) (n : Nat) : Decidable (TimestampsFit timestamps n) :=
  inferInstanceAs (Decidable (_ ∧ _))

/-- The products of the branch taken stay below `2^64`: in the branch that multiplies
first the whole numerator, in the other the quotient times its factor, with the
half unit the rounding adds. -/
def RetargetFits (n avgD L : Nat) : Prop :=
  if avgD > 2000000 * n * n * difficultyTarget.toNat then
    avgD / (200 * L) * (n * (n + 1) * difficultyTarget.toNat * 99) + 500000000 < 2 ^ 64
  else avgD * n * (n + 1) * difficultyTarget.toNat * 99 < 2 ^ 64

instance (n avgD L : Nat) : Decidable (RetargetFits n avgD L) := by
  unfold RetargetFits
  infer_instance

/-! ## The loop over solve times -/

def lwmaTurns (timestamps : List UInt64) (n : Nat) : UInt64 × UInt64 :=
  (List.range' 1 n).foldl (lwmaTurn timestamps) (0, timestamps.getD 0 0 - difficultyTarget)

theorem lwmaTurns_succ (timestamps : List UInt64) (n : Nat) :
    lwmaTurns timestamps (n + 1) = lwmaTurn timestamps (lwmaTurns timestamps n) (n + 1) := by
  simp [lwmaTurns, range'_1_concat, Nat.add_comm]

theorem exactTurns_succ (timestamps : List UInt64) (n : Nat) :
    exactTurns timestamps (n + 1) = exactTurn timestamps (exactTurns timestamps n) (n + 1) := by
  simp [exactTurns, range'_1_concat, Nat.add_comm]

/-- A turn adds at most `60 * 6 * T`, whatever the timestamps are. -/
theorem lwmaTurn_weight {i : Nat} (hi : i ≤ difficultyWindow) (d : UInt64) :
    (UInt64.ofNat i * min (6 * difficultyTarget) d).toNat = i * min 540 d.toNat := by
  have hi' : i ≤ 60 := hi
  have hmin : (min (6 * difficultyTarget) d).toNat = min 540 d.toNat := by
    change (if (540 : UInt64) ≤ d then (540 : UInt64) else d).toNat = _
    rw [Nat.min_def]
    by_cases h : (540 : UInt64) ≤ d
    · have h' : 540 ≤ d.toNat := le_iff_toNat_le.mp h
      simp [h, h']
    · have h' : ¬ 540 ≤ d.toNat := fun hc => h (le_iff_toNat_le.mpr hc)
      simp [h, h']
  rw [UInt64.toNat_mul, hmin, toNat_ofNat_of_lt' (by simp [UInt64.size]; omega)]
  have : i * min 540 d.toNat ≤ 60 * 540 := Nat.mul_le_mul hi' (Nat.min_le_left _ _)
  omega

/-- Solve times of `6 * T` in every turn: `6 * T * (1 + 2 + ... + n)`. -/
theorem lwmaTurns_weight (timestamps : List UInt64) : ∀ n ≤ difficultyWindow,
    (lwmaTurns timestamps n).1.toNat ≤ 270 * (n * (n + 1))
  | 0, _ => by simp [lwmaTurns]
  | n + 1, hn => by
    have ih := lwmaTurns_weight timestamps n (by omega)
    have hn' : n + 1 ≤ 60 := hn
    rw [lwmaTurns_succ]
    simp only [lwmaTurn]
    rw [UInt64.toNat_add, lwmaTurn_weight hn]
    have hturn : ∀ d : UInt64, (n + 1) * min 540 d.toNat ≤ (n + 1) * 540 :=
      fun d => Nat.mul_le_mul_left _ (Nat.min_le_left _ _)
    have := hturn ((if timestamps.getD (n + 1) 0 > (lwmaTurns timestamps n).2
      then timestamps.getD (n + 1) 0 else (lwmaTurns timestamps n).2 + 1) -
        (lwmaTurns timestamps n).2)
    have hnext : 270 * ((n + 1) * (n + 1 + 1)) = 270 * (n * (n + 1)) + (n + 1) * 540 := by ring
    have hle : n * (n + 1) ≤ 60 * 60 := Nat.mul_le_mul (by omega) hn'
    omega

variable {n : Nat}

theorem lwmaTurns_bound (timestamps : List UInt64) (hn : n ≤ difficultyWindow) :
    (lwmaTurns timestamps n).1.toNat ≤ 32400 * n := by
  have hn' : n ≤ 60 := hn
  have hsq : n * (n + 1) ≤ n * 61 := Nat.mul_le_mul_left _ (by omega)
  have := lwmaTurns_weight timestamps n hn
  omega

variable {timestamps : List UInt64}

/-- Over timestamps that fit, the words of the loop are the integers of the formula. The
second half carries the induction: the previous timestamp leaves room for one
correction in each turn still to come. -/
theorem lwmaTurns_exact (hn : n ≤ difficultyWindow) (hfit : TimestampsFit timestamps n) : ∀ k ≤ n,
    (lwmaTurns timestamps k).1.toNat = (exactTurns timestamps k).1 ∧
      ((lwmaTurns timestamps k).2.toNat : Int) = (exactTurns timestamps k).2 ∧
      (lwmaTurns timestamps k).2.toNat + (n - k) < 2 ^ 64
  | 0, _ => by
    obtain ⟨h0, hall⟩ := hfit
    have h0' : difficultyTarget.toNat ≤ (timestamps.getD 0 0).toNat := le_iff_toNat_le.mp h0
    have hsub := UInt64.toNat_sub_of_le _ _ h0
    have hlast := hall 0 (by omega)
    simp only [lwmaTurns, exactTurns, range'_zero, foldl_nil]
    refine ⟨rfl, ?_, ?_⟩
    · rw [hsub]
      omega
    · rw [hsub]
      omega
  | k + 1, hk => by
    obtain ⟨hL, hprev, hroom⟩ := lwmaTurns_exact hn hfit k (by omega)
    have hbound := lwmaTurns_bound timestamps (n := k) (by omega)
    have hk60 : k + 1 ≤ 60 := le_trans hk hn
    have ht := hfit.2 (k + 1) hk
    rw [lwmaTurns_succ, exactTurns_succ]
    simp only [lwmaTurn, exactTurn]
    rw [UInt64.toNat_add, lwmaTurn_weight (le_trans hk hn)]
    generalize lwmaTurns timestamps k = s at *
    generalize exactTurns timestamps k = e at *
    generalize timestamps.getD (k + 1) 0 = t at *
    have hturn : ∀ d : Nat, (k + 1) * min 540 d ≤ 60 * 540 :=
      fun d => Nat.mul_le_mul hk60 (Nat.min_le_left _ _)
    rw [← hprev]
    by_cases hlater : t > s.2
    · have hlater' : s.2.toNat < t.toNat := lt_iff_toNat_lt.mp hlater
      have hcmp : ((t.toNat : Int) > (s.2.toNat : Int)) := by omega
      have hsub : (t - s.2).toNat = t.toNat - s.2.toNat :=
        UInt64.toNat_sub_of_le _ _ (le_iff_toNat_le.mpr (by omega))
      rw [if_pos hlater, if_pos hcmp, hsub, ← hL]
      have := hturn (t.toNat - s.2.toNat)
      refine ⟨?_, rfl, by omega⟩
      rw [show ((t.toNat : Int) - s.2.toNat).toNat = t.toNat - s.2.toNat by omega,
        show 6 * difficultyTarget.toNat = 540 from rfl]
      omega
    · have hlater' : ¬ s.2.toNat < t.toNat := fun hc => hlater (lt_iff_toNat_lt.mpr hc)
      have hcmp : ¬ ((t.toNat : Int) > (s.2.toNat : Int)) := by omega
      have hsucc : (s.2 + 1).toNat = s.2.toNat + 1 := by
        rw [UInt64.toNat_add, show (1 : UInt64).toNat = 1 from rfl]
        omega
      have hsub : (s.2 + 1 - s.2).toNat = 1 := by
        rw [UInt64.toNat_sub_of_le _ _ (le_iff_toNat_le.mpr (by omega)), hsucc]
        omega
      rw [if_neg hlater, if_neg hcmp, hsub, ← hL, hsucc]
      have := hturn 1
      refine ⟨?_, by omega, by omega⟩
      rw [show ((s.2.toNat : Int) + 1 - s.2.toNat).toNat = 1 by omega, show 6 * difficultyTarget.toNat = 540 from rfl]
      omega

/-- `L` after its lower clamp, in words. -/
def lwmaSum (timestamps : List UInt64) (n : Nat) : UInt64 :=
  let N := UInt64.ofNat n
  let L := (lwmaTurns timestamps n).1
  if L < N * N * difficultyTarget / 20 then N * N * difficultyTarget / 20 else L

theorem lwmaClamp_toNat (hn : n ≤ difficultyWindow) :
    (UInt64.ofNat n * UInt64.ofNat n * difficultyTarget / 20).toNat = n * n * 90 / 20 := by
  have hn' : n ≤ 60 := hn
  have hsq : n * n ≤ 60 * 60 := Nat.mul_le_mul hn' hn'
  rw [UInt64.toNat_div, UInt64.toNat_mul, UInt64.toNat_mul, toNat_ofNat_of_lt' (by simp [UInt64.size]; omega),
    show difficultyTarget.toNat = 90 from rfl, show (20 : UInt64).toNat = 20 from rfl]
  omega

theorem lwmaSum_toNat (timestamps : List UInt64) (hn : n ≤ difficultyWindow) :
    (lwmaSum timestamps n).toNat = max (lwmaTurns timestamps n).1.toNat (n * n * 90 / 20) := by
  simp only [lwmaSum]
  have hclamp := lwmaClamp_toNat hn
  generalize UInt64.ofNat n * UInt64.ofNat n * difficultyTarget / 20 = c at *
  by_cases h : (lwmaTurns timestamps n).1 < c
  · have h' := lt_iff_toNat_lt.mp h
    rw [if_pos h]
    omega
  · have h' : ¬ (lwmaTurns timestamps n).1.toNat < c.toNat :=
      fun hc => h (lt_iff_toNat_lt.mpr hc)
    rw [if_neg h]
    omega

/-- Whatever the timestamps are, `200 * L` is neither zero nor wrapped. -/
theorem lwmaSum_bounds (timestamps : List UInt64) (hn : n ≤ difficultyWindow) (hpos : n ≠ 0) :
    4 ≤ (lwmaSum timestamps n).toNat ∧ (lwmaSum timestamps n).toNat ≤ 1944000 := by
  have hn' : n ≤ 60 := hn
  have hsq : n * n ≤ 60 * 60 := Nat.mul_le_mul hn' hn'
  have hsq1 : 1 * 1 ≤ n * n := Nat.mul_le_mul (by omega) (by omega)
  have hturns := lwmaTurns_bound timestamps hn
  rw [lwmaSum_toNat timestamps hn]
  omega

theorem lwmaSum_exact (hn : n ≤ difficultyWindow) (hfit : TimestampsFit timestamps n) :
    (lwmaSum timestamps n).toNat = exactSum timestamps n := by
  rw [lwmaSum_toNat timestamps hn, (lwmaTurns_exact hn hfit n le_rfl).1]
  rfl

/-! ## Rounding -/

theorem roundScale_toNat (x : UInt64) :
    (([1000000000, 100000000, 10000000, 1000000, 100000, 10000, 1000, 100, 10] : List UInt64).find?
        fun i => x > i * 100).map UInt64.toNat =
      ([1000000000, 100000000, 10000000, 1000000, 100000, 10000, 1000, 100, 10] : List Nat).find?
        fun i => x.toNat > i * 100 := by
  simp only [find?_cons, find?_nil, gt_iff_lt, lt_iff_toNat_lt]
  repeat' split
  all_goals simp_all

theorem scale_bounds {i : Nat} {p : Nat → Bool}
    (h : ([1000000000, 100000000, 10000000, 1000000, 100000, 10000, 1000, 100, 10] : List Nat).find? p = some i) :
    10 ≤ i ∧ i ≤ 1000000000 := by
  have hmem := mem_of_find?_eq_some h
  simp only [mem_cons, not_mem_nil, or_false] at hmem
  omega

/-- Rounding to a multiple of the scale takes away at most half a unit. -/
theorem le_exactRound (x : Nat) : x ≤ exactRound x + 500000000 := by
  unfold exactRound
  split
  · rename_i i hi
    have := scale_bounds hi
    have hdiv := div_add_mod (x + i / 2) i
    have hmod := mod_lt (x + i / 2) (show i > 0 by omega)
    rw [Nat.mul_comm] at hdiv
    omega
  · omega

theorem roundDifficulty_toNat (x : UInt64) :
    (roundDifficulty x = x ∧ exactRound x.toNat = x.toNat ∧ x.toNat ≤ 1000) ∨ ∃ i ≤ 1000000000, 10 ≤ i ∧
        (roundDifficulty x).toNat = (x.toNat + i / 2) % 2 ^ 64 / i * i ∧
        exactRound x.toNat = (x.toNat + i / 2) / i * i ∧ i * 100 < x.toNat := by
  have hscale := roundScale_toNat x
  unfold roundDifficulty exactRound
  rw [← hscale]
  split
  · rename_i i hi
    rw [hi] at hscale
    have hb := scale_bounds hscale.symm
    have hbelow : i.toNat * 100 < x.toNat := by simpa using find?_some hscale.symm
    refine Or.inr ⟨i.toNat, hb.2, hb.1, ?_, by rw [hi]; rfl, hbelow⟩
    have hlt : (x.toNat + i.toNat / 2) % 2 ^ 64 / i.toNat * i.toNat < 2 ^ 64 :=
      lt_of_le_of_lt (div_mul_le_self _ _) (mod_lt _ (by norm_num))
    rw [UInt64.toNat_mul, UInt64.toNat_div, UInt64.toNat_add, UInt64.toNat_div,
      show (2 : UInt64).toNat = 2 from rfl, mod_eq_of_lt hlt]
  · rename_i hi
    rw [hi] at hscale
    refine Or.inl ⟨rfl, by rw [hi]; rfl, ?_⟩
    simpa using find?_eq_none.mp hscale.symm 10 (by simp)

theorem roundDifficulty_le (x : UInt64) : (roundDifficulty x).toNat ≤ x.toNat + 500000000 := by
  obtain ⟨h, -, -⟩ | ⟨i, hi, hpos, h, -⟩ := roundDifficulty_toNat x
  · rw [h]
    omega
  · have h1 := div_mul_le_self ((x.toNat + i / 2) % 2 ^ 64) i
    have h2 := mod_le (x.toNat + i / 2) (2 ^ 64)
    omega

variable {x : UInt64}

theorem roundDifficulty_exact (hx : x.toNat + 500000000 < 2 ^ 64) : (roundDifficulty x).toNat = exactRound x.toNat := by
  obtain ⟨h, h', -⟩ | ⟨i, hi, -, h, h', -⟩ := roundDifficulty_toNat x
  · rw [h, h']
  · rw [h, h', mod_eq_of_lt (by omega)]

/-- The largest words wrap when the half unit is added. -/
theorem roundDifficulty_wraps (hx : 2 ^ 64 ≤ x.toNat + 500000000) : (roundDifficulty x).toNat ≤ 500000000 := by
  have hscale : ([1000000000, 100000000, 10000000, 1000000, 100000, 10000, 1000, 100, 10] :
      List UInt64).find? (fun i => x > i * 100) = some 1000000000 := by
    rw [find?_cons_of_pos]
    simp only [gt_iff_lt, decide_eq_true_eq, lt_iff_toNat_lt]
    change 100000000000 < x.toNat
    omega
  have hlt := x.toNat_lt
  unfold roundDifficulty
  rw [hscale]
  change ((x + 500000000) / 1000000000 * 1000000000).toNat ≤ _
  have hsum : (x + 500000000).toNat = x.toNat + 500000000 - 2 ^ 64 := by
    rw [UInt64.toNat_add]
    change (x.toNat + 500000000) % 2 ^ 64 = _
    omega
  have hzero : ((x + 500000000) / 1000000000).toNat = 0 := by
    rw [UInt64.toNat_div, hsum]
    change (x.toNat + 500000000 - 2 ^ 64) / 1000000000 = 0
    omega
  rw [UInt64.toNat_mul, hzero]
  omega

/-! ## The next difficulty -/

def lwmaNext (n : Nat) (avgD L : UInt64) : UInt64 :=
  let N := UInt64.ofNat n
  if avgD > 2000000 * N * N * difficultyTarget then
    avgD / (200 * L) * (N * (N + 1) * difficultyTarget * 99)
  else avgD * N * (N + 1) * difficultyTarget * 99 / (200 * L)

variable {L : UInt64}

theorem two_hundred_toNat (hL : L.toNat ≤ 1944000) : (200 * L).toNat = 200 * L.toNat := by
  rw [UInt64.toNat_mul]
  change 200 * L.toNat % 2 ^ 64 = _
  omega

/-- The words of the formula: only the two long products can wrap. -/
theorem lwmaNext_toNat (hn : n ≤ difficultyWindow) (avgD : UInt64) (hL : L.toNat ≤ 1944000) :
    (lwmaNext n avgD L).toNat =
      if avgD.toNat > 2000000 * n * n * 90 then
        avgD.toNat / (200 * L.toNat) * (n * (n + 1) * 90 * 99) % 2 ^ 64
      else avgD.toNat * n * (n + 1) * 90 * 99 % 2 ^ 64 / (200 * L.toNat) := by
  have hn' : n ≤ 60 := hn
  have hsq : n * n ≤ 60 * 60 := Nat.mul_le_mul hn' hn'
  have hN : (UInt64.ofNat n).toNat = n :=
    toNat_ofNat_of_lt' (by simp only [UInt64.size]; omega)
  have hN1 : (UInt64.ofNat n + 1).toNat = n + 1 := by
    rw [UInt64.toNat_add, hN]
    change (n + 1) % 2 ^ 64 = _
    omega
  have h200 := two_hundred_toNat hL
  have hguard : (2000000 * UInt64.ofNat n * UInt64.ofNat n * difficultyTarget).toNat = 2000000 * n * n * 90 := by
    rw [UInt64.toNat_mul, UInt64.toNat_mul, UInt64.toNat_mul, hN]
    change 2000000 * n % 2 ^ 64 * n % 2 ^ 64 * 90 % 2 ^ 64 = _
    rw [mod_eq_of_lt (show 2000000 * n < 2 ^ 64 by omega), Nat.mul_assoc 2000000 n n,
      mod_eq_of_lt (show 2000000 * (n * n) < 2 ^ 64 by omega)]
    omega
  have hfactor : (UInt64.ofNat n * (UInt64.ofNat n + 1) * difficultyTarget * 99).toNat = n * (n + 1) * 90 * 99 := by
    rw [UInt64.toNat_mul, UInt64.toNat_mul, UInt64.toNat_mul, hN, hN1]
    change n * (n + 1) % 2 ^ 64 * 90 % 2 ^ 64 * 99 % 2 ^ 64 = _
    have : n * (n + 1) ≤ 60 * 61 := Nat.mul_le_mul hn' (by omega)
    generalize n * (n + 1) = m at *
    omega
  have hproduct : (avgD * UInt64.ofNat n * (UInt64.ofNat n + 1) * difficultyTarget * 99).toNat =
      avgD.toNat * n * (n + 1) * 90 * 99 % 2 ^ 64 := by
    rw [UInt64.toNat_mul, UInt64.toNat_mul, UInt64.toNat_mul, UInt64.toNat_mul, hN, hN1]
    change avgD.toNat * n % 2 ^ 64 * (n + 1) % 2 ^ 64 * 90 % 2 ^ 64 * 99 % 2 ^ 64 = _
    simp only [mod_mul_mod]
  simp only [lwmaNext]
  by_cases h : avgD > 2000000 * UInt64.ofNat n * UInt64.ofNat n * difficultyTarget
  · have h' : avgD.toNat > 2000000 * n * n * 90 := hguard ▸ lt_iff_toNat_lt.mp h
    rw [if_pos h, if_pos h', UInt64.toNat_mul, UInt64.toNat_div, h200, hfactor]
  · have h' : ¬ avgD.toNat > 2000000 * n * n * 90 :=
      fun hc => h (lt_iff_toNat_lt.mpr (hguard.symm ▸ hc))
    rw [if_neg h, if_neg h', UInt64.toNat_div, h200, hproduct]

/-- A numerator that leaves the word loses at least `2^64`, so the quotient loses more
than any rounding can give back. -/
theorem div_wrapped_lt {p d : Nat} (hp : 2 ^ 64 ≤ p) (hpos : 0 < d) (hd : d ≤ 388800000) :
    p % 2 ^ 64 / d + 40000000000 ≤ p / d := by
  rw [Nat.le_div_iff_mul_le hpos, Nat.add_mul]
  have h1 := div_mul_le_self (p % 2 ^ 64) d
  have h2 : 40000000000 * d ≤ 40000000000 * 388800000 := Nat.mul_le_mul_left _ hd
  have h3 := div_add_mod p (2 ^ 64)
  have h4 : 1 ≤ p / 2 ^ 64 := (Nat.one_le_div_iff (by norm_num)).mpr hp
  omega

/-- One retarget in words against the formula: equal exactly when the products fit. -/
theorem lwmaNext_exact_iff (hn : n ≤ difficultyWindow) (avgD : UInt64)
    (hpos : 4 ≤ L.toNat) (hL : L.toNat ≤ 1944000) {low : Nat} (hlow : low ≤ 100000) :
    max low (roundDifficulty (lwmaNext n avgD L)).toNat = max low (exactRound (exactNext n avgD.toNat L.toNat)) ↔
      RetargetFits n avgD.toNat L.toNat := by
  have hword := lwmaNext_toNat hn avgD hL
  have hle := roundDifficulty_le (lwmaNext n avgD L)
  have hlt := (lwmaNext n avgD L).toNat_lt
  unfold exactNext RetargetFits
  rw [show difficultyTarget.toNat = 90 from rfl]
  by_cases hbig : avgD.toNat > 2000000 * n * n * 90
  · rw [if_pos hbig] at hword ⊢
    rw [if_pos hbig]
    generalize avgD.toNat / (200 * L.toNat) * (n * (n + 1) * 90 * 99) = q at *
    have hround := le_exactRound q
    constructor
    · intro heq
      by_contra hover
      by_cases hq : q < 2 ^ 64
      · -- the product fits and the rounding alone wraps
        rw [mod_eq_of_lt hq] at hword
        have := roundDifficulty_wraps (x := lwmaNext n avgD L) (by omega)
        omega
      · omega
    · intro hfit
      rw [mod_eq_of_lt (by omega)] at hword
      rw [roundDifficulty_exact (by omega), hword]
  · rw [if_neg hbig] at hword ⊢
    rw [if_neg hbig]
    generalize avgD.toNat * n * (n + 1) * 90 * 99 = p at *
    have hround := le_exactRound (p / (200 * L.toNat))
    constructor
    · intro heq
      by_contra hover
      have := div_wrapped_lt (p := p) (d := 200 * L.toNat) (by omega) (by omega) (by omega)
      omega
    · intro hfit
      rw [mod_eq_of_lt hfit] at hword
      have hsmall : p / (200 * L.toNat) ≤ 2 ^ 64 / 200 :=
        Nat.div_le_div hfit.le (by omega) (by norm_num)
      rw [roundDifficulty_exact (by omega), hword]

theorem nextDifficulty_eq (testnet : Bool) (timestamps cumulativeDifficulties : List UInt64) :
    nextDifficulty testnet timestamps cumulativeDifficulties =
      let n := retargetWindow timestamps cumulativeDifficulties
      let avgD := (cumulativeDifficulties.getD n 0 - cumulativeDifficulties.getD 0 0) /
        UInt64.ofNat n
      if n = 0 then floorDifficulty testnet
      else if lwmaSum timestamps n = 0 then floorDifficulty testnet
      else if avgD = 0 then floorDifficulty testnet
      else max (floorDifficulty testnet)
        (roundDifficulty (lwmaNext n avgD (lwmaSum timestamps n))) := by
  unfold nextDifficulty
  by_cases hshort : timestamps.length ≤ 1 ∨ cumulativeDifficulties.length ≤ 1
  · have hzero : retargetWindow timestamps cumulativeDifficulties = 0 := by
      unfold retargetWindow
      omega
    rw [if_pos hshort, hzero]
    rfl
  · rw [if_neg hshort]
    rfl

theorem floorDifficulty_pos (testnet : Bool) : floorDifficulty testnet ≠ 0 := by
  cases testnet <;> decide

theorem floorDifficulty_le (testnet : Bool) : (floorDifficulty testnet).toNat ≤ 100000 := by
  cases testnet <;> decide

theorem max_toNat (a b : UInt64) : (max a b).toNat = max a.toNat b.toNat := by
  change (if a ≤ b then b else a).toNat = _
  rw [Nat.max_def]
  by_cases h : a ≤ b
  · rw [if_pos h, if_pos (le_iff_toNat_le.mp h)]
  · rw [if_neg h, if_neg fun hc => h (le_iff_toNat_le.mpr hc)]

theorem nextDifficulty_ne_zero (testnet : Bool) (timestamps cumulativeDifficulties : List UInt64) :
    nextDifficulty testnet timestamps cumulativeDifficulties ≠ 0 := by
  have hfloor := floorDifficulty_pos testnet
  rw [nextDifficulty_eq]
  dsimp only
  split_ifs
  · exact hfloor
  · exact hfloor
  · exact hfloor
  · intro hzero
    have hmax := congrArg UInt64.toNat hzero
    rw [max_toNat, show (0 : UInt64).toNat = 0 from rfl] at hmax
    exact hfloor (UInt64.toNat_inj.mp (by
      change (floorDifficulty testnet).toNat = 0
      omega))

/-! ## Divisors -/

/-- A division the machine would trap on gives nothing. -/
def divChecked (a b : UInt64) : Option UInt64 := if b = 0 then none else some (a / b)

theorem divChecked_of_ne {b : UInt64} (h : b ≠ 0) (a : UInt64) : divChecked a b = some (a / b) :=
  if_neg h

def roundDifficultyChecked (nextD : UInt64) : Option UInt64 :=
  match [1000000000, 100000000, 10000000, 1000000, 100000, 10000, 1000, 100, 10].find?
      fun i : UInt64 => nextD > i * 100 with
  | some i => do
    let half ← divChecked i 2
    let units ← divChecked (nextD + half) i
    return units * i
  | none => some nextD

def lwmaSumChecked (timestamps : List UInt64) (n : Nat) : Option UInt64 := do
  let N := UInt64.ofNat n
  let L := (lwmaTurns timestamps n).1
  let least ← divChecked (N * N * difficultyTarget) 20
  return if L < least then least else L

def lwmaNextChecked (n : Nat) (avgD L : UInt64) : Option UInt64 :=
  let N := UInt64.ofNat n
  if avgD > 2000000 * N * N * difficultyTarget then
    (divChecked avgD (200 * L)).map (· * (N * (N + 1) * difficultyTarget * 99))
  else divChecked (avgD * N * (N + 1) * difficultyTarget * 99) (200 * L)

/-- `nextDifficulty` with every division guarded.
mirrors Currency.cpp:333-443 -/
def nextDifficultyChecked (testnet : Bool) (timestamps cumulativeDifficulties : List UInt64) :
    Option UInt64 := do
  let n := retargetWindow timestamps cumulativeDifficulties
  if n = 0 then return floorDifficulty testnet
  let L ← lwmaSumChecked timestamps n
  if L = 0 then return floorDifficulty testnet
  let avgD ← divChecked (cumulativeDifficulties.getD n 0 - cumulativeDifficulties.getD 0 0)
    (UInt64.ofNat n)
  if avgD = 0 then return floorDifficulty testnet
  let nextD ← lwmaNextChecked n avgD L
  let rounded ← roundDifficultyChecked nextD
  return max (floorDifficulty testnet) rounded

theorem roundDifficultyChecked_eq (x : UInt64) : roundDifficultyChecked x = some (roundDifficulty x) := by
  unfold roundDifficultyChecked roundDifficulty
  generalize hfind : List.find? (fun i : UInt64 => decide (x > i * 100))
    [1000000000, 100000000, 10000000, 1000000, 100000, 10000, 1000, 100, 10] = found
  cases found with
  | none => rfl
  | some i =>
    have hne : i ≠ 0 := by
      have hmem := mem_of_find?_eq_some hfind
      simp only [mem_cons, not_mem_nil, or_false] at hmem
      rcases hmem with rfl | rfl | rfl | rfl | rfl | rfl | rfl | rfl | rfl <;> decide
    dsimp only
    rw [divChecked_of_ne (by decide : (2 : UInt64) ≠ 0)]
    simp only [Option.bind_eq_bind, Option.bind_some, divChecked_of_ne hne, Option.pure_def]

theorem window_ne_zero (hn : n ≤ difficultyWindow) (hzero : n ≠ 0) : UInt64.ofNat n ≠ 0 := by
  intro hc
  have hc' := congrArg UInt64.toNat hc
  have hn' : n ≤ 60 := hn
  rw [toNat_ofNat_of_lt' (by simp only [UInt64.size]; omega)] at hc'
  exact hzero hc'

theorem two_hundred_ne_zero (h : 4 ≤ L.toNat ∧ L.toNat ≤ 1944000) : 200 * L ≠ 0 := by
  have h200 := two_hundred_toNat h.2
  intro hc
  rw [hc] at h200
  exact absurd h200 (by simp; omega)

theorem lwmaSumChecked_eq (timestamps : List UInt64) (n : Nat) :
    lwmaSumChecked timestamps n = some (lwmaSum timestamps n) := rfl

theorem lwmaNextChecked_eq (h : 200 * L ≠ 0) (n : Nat) (avgD : UInt64) :
    lwmaNextChecked n avgD L = some (lwmaNext n avgD L) := by
  simp only [lwmaNextChecked, lwmaNext, divChecked_of_ne h, Option.map_some]
  split_ifs <;> rfl

/-- No divisor of the retarget is ever zero: the window is not empty where it divides, and
`200 * L` lies between `800` and `388800000` whatever the timestamps are. -/
theorem nextDifficultyChecked_eq (testnet : Bool) (timestamps cumulativeDifficulties : List UInt64) :
    nextDifficultyChecked testnet timestamps cumulativeDifficulties =
      some (nextDifficulty testnet timestamps cumulativeDifficulties) := by
  rw [nextDifficulty_eq, nextDifficultyChecked]
  dsimp only
  have hle : retargetWindow timestamps cumulativeDifficulties ≤ difficultyWindow :=
    Nat.min_le_left _ _
  generalize retargetWindow timestamps cumulativeDifficulties = n at *
  by_cases hzero : n = 0
  · simp only [if_pos hzero, Option.pure_def]
  · have hN := window_ne_zero hle hzero
    have h200 := two_hundred_ne_zero (lwmaSum_bounds timestamps hle hzero)
    rw [lwmaSumChecked_eq]
    generalize lwmaSum timestamps n = L at *
    simp only [if_neg hzero, divChecked_of_ne hN, lwmaNextChecked_eq h200,
      roundDifficultyChecked_eq, Option.bind_eq_bind, Option.bind_some, Option.pure_def]
    split_ifs <;> rfl

/-! ## The retarget -/

theorem average_toNat {cumulativeDifficulties : List UInt64} (hn : n ≤ difficultyWindow)
    (hcum : cumulativeDifficulties.getD 0 0 ≤ cumulativeDifficulties.getD n 0) :
    ((cumulativeDifficulties.getD n 0 - cumulativeDifficulties.getD 0 0) / UInt64.ofNat n).toNat =
      exactAverage cumulativeDifficulties n := by
  have hn' : n ≤ 60 := hn
  rw [UInt64.toNat_div, UInt64.toNat_sub_of_le _ _ hcum, toNat_ofNat_of_lt' (by simp only [UInt64.size]; omega)]
  rfl

/-- A full window of `90` second solve times at a steady difficulty. -/
def steadyTimestamps : List UInt64 := (List.range 61).map fun i => UInt64.ofNat (1000 + 90 * i)

def steadyDifficulties (difficulty : Nat) : List UInt64 :=
  (List.range 61).map fun i => UInt64.ofNat (difficulty * i)

theorem lwmaSum_weight (timestamps : List UInt64) (hn : n ≤ difficultyWindow) :
    n * n * 90 / 20 ≤ (lwmaSum timestamps n).toNat ∧ (lwmaSum timestamps n).toNat ≤ 270 * (n * (n + 1)) := by
  have hturns := lwmaTurns_weight timestamps n hn
  have hsq : n * n ≤ n * (n + 1) := Nat.mul_le_mul_left _ (le_succ n)
  rw [lwmaSum_toNat timestamps hn]
  omega

/-- Rounding moves a difficulty by at most half a percent. -/
theorem roundDifficulty_near (hx : x.toNat + 500000000 < 2 ^ 64) :
    199 * x.toNat ≤ 200 * (roundDifficulty x).toNat ∧ 200 * (roundDifficulty x).toNat ≤ 201 * x.toNat := by
  obtain ⟨h, -, -⟩ | ⟨i, hi, hpos, h, -, hbelow⟩ := roundDifficulty_toNat x
  · rw [h]
    omega
  · have hdiv := div_add_mod (x.toNat + i / 2) i
    have hmod := mod_lt (x.toNat + i / 2) (show i > 0 by omega)
    rw [h, mod_eq_of_lt (by omega)]
    rw [Nat.mul_comm] at hdiv
    omega

/-- Divided last, the quotient loses less than one. -/
theorem quotient_near {D L k : Nat} (hL : L ≠ 0) (hhigh : L ≤ 270 * k) :
    99 * D ≤ 600 * (D * (8910 * k) / (200 * L) + 1) := by
  have hlt := lt_mul_div_succ (D * (8910 * k)) (show 0 < 200 * L by omega)
  generalize D * (8910 * k) / (200 * L) = x at *
  have hle : 200 * L * (x + 1) ≤ 54000 * k * (x + 1) := Nat.mul_le_mul_right _ (by omega)
  by_contra hcon
  have hmul : 90 * k * (600 * (x + 1)) ≤ 90 * k * (99 * D) := Nat.mul_le_mul_left _ (by omega)
  have e1 : 90 * k * (600 * (x + 1)) = 54000 * k * (x + 1) := by ring
  have e2 : 90 * k * (99 * D) = D * (8910 * k) := by ring
  omega

/-- Divided first, it loses a multiple of the weights, which is small against an average
over `2000000 * N * N * T`. -/
theorem quotient_first_near {D L k : Nat} (hL : L ≠ 0) (hhigh : L ≤ 270 * k) (hD : 90000000 * k < D) :
    999 * 99 * D ≤ 600000 * (D / (200 * L) * (8910 * k)) := by
  have hlt := lt_mul_div_succ D (show 0 < 200 * L by omega)
  generalize D / (200 * L) = q at *
  have hle : 200 * L * (q + 1) ≤ 54000 * k * (q + 1) := Nat.mul_le_mul_right _ (by omega)
  have e1 : 600000 * (q * (8910 * k)) = 99000 * (54000 * k * (q + 1)) - 5346000000 * k := by
    have : 99000 * (54000 * k * (q + 1)) = 600000 * (q * (8910 * k)) + 5346000000 * k := by ring
    omega
  omega

/-- The quotient before rounding, in both orders of the source. -/
theorem lwmaNext_near (hn : n ≤ difficultyWindow) (hpos : n ≠ 0) {avgD : UInt64} (hL : L.toNat ≠ 0)
    (hhigh : L.toNat ≤ 270 * (n * (n + 1))) (hfit : avgD.toNat * n * (n + 1) * 90 * 99 < 2 ^ 64) :
    999 * 99 * avgD.toNat ≤ 600000 * ((lwmaNext n avgD L).toNat + 1) ∧
      (lwmaNext n avgD L).toNat * (200 * L.toNat) ≤ avgD.toNat * (8910 * (n * (n + 1))) := by
  have hn' : n ≤ 60 := hn
  have hk : n * (n + 1) ≤ 60 * 61 := Nat.mul_le_mul hn' (by omega)
  have hsq : n * (n + 1) ≤ 2 * (n * n) := by
    have : n * 1 ≤ n * n := Nat.mul_le_mul_left _ (by omega)
    rw [Nat.mul_add]
    omega
  have hprod : avgD.toNat * n * (n + 1) * 90 * 99 = avgD.toNat * (8910 * (n * (n + 1))) := by ring
  have hweight : n * (n + 1) * 90 * 99 = 8910 * (n * (n + 1)) := by ring
  have hguard : 2000000 * n * n * 90 = 180000000 * (n * n) := by ring
  rw [hprod] at hfit
  rw [lwmaNext_toNat hn avgD (by omega), hprod, hweight, hguard]
  generalize n * (n + 1) = k at *
  generalize avgD.toNat = D at *
  generalize L.toNat = L at *
  split
  · rename_i hbig
    have hq : D / (200 * L) * (8910 * k) * (200 * L) ≤ D * (8910 * k) := by
      calc D / (200 * L) * (8910 * k) * (200 * L) = D / (200 * L) * (200 * L) * (8910 * k) := by ring
        _ ≤ D * (8910 * k) := Nat.mul_le_mul_right _ (div_mul_le_self _ _)
    have hle : D / (200 * L) * (8910 * k) ≤ D * (8910 * k) := Nat.mul_le_mul_right _ (Nat.div_le_self _ _)
    have := quotient_first_near hL hhigh (D := D) (by omega)
    rw [mod_eq_of_lt (by omega)]
    omega
  · have := quotient_near hL hhigh (D := D)
    rw [mod_eq_of_lt hfit]
    exact ⟨by omega, div_mul_le_self _ _⟩

theorem getD_le_of_pairwise {l : List UInt64} (h : l.Pairwise (· ≤ ·)) (hn : n < l.length) :
    l.getD 0 0 ≤ l.getD n 0 := by
  rw [getD_eq_getElem _ _ hn, getD_eq_getElem _ _ (by omega)]
  rcases Nat.eq_zero_or_pos n with rfl | hpos
  · exact UInt64.le_refl _
  · exact pairwise_iff_getElem.mp h 0 n (by omega) hn hpos

/-- The next difficulty of a window with an average, between two multiples of it. -/
theorem retarget_near (testnet : Bool) {cumulativeDifficulties : List UInt64}
    (hmono : cumulativeDifficulties.Pairwise (· ≤ ·)) (hn : n = retargetWindow timestamps cumulativeDifficulties)
    (hfit : exactAverage cumulativeDifficulties n * n * (n + 1) * 90 * 99 < 2 ^ 64) :
    nextDifficulty testnet timestamps cumulativeDifficulties = floorDifficulty testnet ∧
        exactAverage cumulativeDifficulties n = 0 ∨
      ∃ x r : Nat, 999 * 99 * exactAverage cumulativeDifficulties n ≤ 600000 * (x + 1) ∧
        x * (200 * (n * n * 90 / 20)) ≤ exactAverage cumulativeDifficulties n * (8910 * (n * (n + 1))) ∧
        199 * x ≤ 200 * r ∧ 200 * r ≤ 201 * x ∧ 4 ≤ n * n * 90 / 20 ∧
        (nextDifficulty testnet timestamps cumulativeDifficulties).toNat = max (floorDifficulty testnet).toNat r := by
  have hle : n ≤ difficultyWindow := hn ▸ Nat.min_le_left _ _
  rw [nextDifficulty_eq, ← hn]
  dsimp only
  by_cases hzero : n = 0
  · exact .inl ⟨if_pos hzero, by rw [exactAverage, hzero, Nat.div_zero]⟩
  have hlen : n < cumulativeDifficulties.length := by
    unfold retargetWindow at hn
    omega
  have havg := average_toNat hle (getD_le_of_pairwise hmono hlen)
  obtain ⟨hlow, hhigh⟩ := lwmaSum_weight timestamps hle
  obtain ⟨hpos, -⟩ := lwmaSum_bounds timestamps hle hzero
  have hLne : lwmaSum timestamps n ≠ 0 := by
    intro hc
    rw [hc] at hpos
    exact absurd hpos (by decide)
  rw [if_neg hzero, if_neg hLne]
  rw [← havg] at hfit ⊢
  generalize (cumulativeDifficulties.getD n 0 - cumulativeDifficulties.getD 0 0) / UInt64.ofNat n = avgD at *
  by_cases hflat : avgD = 0
  · exact .inl ⟨if_pos hflat, by rw [hflat]; rfl⟩
  obtain ⟨hnear, hquot⟩ := lwmaNext_near hle hzero (by omega) hhigh hfit
  have hsmall : (lwmaNext n avgD (lwmaSum timestamps n)).toNat * 800 < 2 ^ 64 := by
    have h1 : (lwmaNext n avgD (lwmaSum timestamps n)).toNat * 800 ≤
        (lwmaNext n avgD (lwmaSum timestamps n)).toNat * (200 * (lwmaSum timestamps n).toNat) :=
      Nat.mul_le_mul_left _ (by omega)
    have h2 : avgD.toNat * n * (n + 1) * 90 * 99 = avgD.toNat * (8910 * (n * (n + 1))) := by ring
    omega
  obtain ⟨hdown, hup⟩ := roundDifficulty_near (x := lwmaNext n avgD (lwmaSum timestamps n)) (by omega)
  have hsq : 1 * 1 ≤ n * n := Nat.mul_le_mul (by omega) (by omega)
  refine .inr ⟨_, _, hnear, le_trans (Nat.mul_le_mul_left _ (by omega)) hquot, hdown, hup, by omega, ?_⟩
  rw [if_neg hflat, max_toNat]

/-- Over a window of `N` solve times and an average `D` whose product fits the word, no choice
of timestamps moves the next difficulty below `0.99 * D * 99 / 600 - 1`, nor above the
quotient by the lower clamp of the weighted sum, or the floor. -/
theorem retarget_bounded (testnet : Bool) (timestamps cumulativeDifficulties : List UInt64)
    (hmono : cumulativeDifficulties.Pairwise (· ≤ ·)) {N D T : Nat}
    (hN : N = retargetWindow timestamps cumulativeDifficulties) (hD : D = exactAverage cumulativeDifficulties N)
    (hT : T = difficultyTarget.toNat) (hfit : D * N * (N + 1) * T * 99 < 2 ^ 64) :
    (99 / 100 : ℚ) * D * 99 / 600 - 1 ≤ (nextDifficulty testnet timestamps cumulativeDifficulties).toNat ∧
    ((nextDifficulty testnet timestamps cumulativeDifficulties).toNat : ℚ) ≤ max ((floorDifficulty testnet).toNat : ℚ)
        ((101 / 100 : ℚ) * D * 99 * N * (N + 1) * T / (200 * (N * N * T / 20 : ℕ))) := by
  obtain rfl : T = 90 := hT
  have hcases := retarget_near testnet hmono hN (hD ▸ hfit)
  rw [← hD] at hcases
  rcases hcases with ⟨hfloor, hzero⟩ | ⟨x, r, hlow, hhigh, hdown, hup, hclamp, heq⟩
  · rw [hfloor, hzero]
    refine ⟨?_, le_max_left _ _⟩
    have : (0 : ℚ) ≤ ((floorDifficulty testnet).toNat : ℚ) := cast_nonneg _
    push_cast
    linarith
  · have hlow' : (98901 : ℚ) * D ≤ 600000 * (x + 1) := by exact_mod_cast hlow
    have hdown' : (199 : ℚ) * x ≤ 200 * r := by exact_mod_cast hdown
    have hup' : (200 : ℚ) * r ≤ 201 * x := by exact_mod_cast hup
    have hD0 : (0 : ℚ) ≤ D := cast_nonneg _
    have hx0 : (0 : ℚ) ≤ x := cast_nonneg _
    rw [heq, cast_max]
    constructor
    · refine le_trans ?_ (le_max_right _ _)
      linarith
    · apply max_le_max_left
      have hclamp' : (0 : ℚ) < 200 * ((N * N * 90 / 20 : ℕ) : ℚ) := by
        have : (0 : ℚ) < ((N * N * 90 / 20 : ℕ) : ℚ) := by exact_mod_cast (show 0 < N * N * 90 / 20 by omega)
        linarith
      have hhigh' : (x : ℚ) * (200 * ((N * N * 90 / 20 : ℕ) : ℚ)) ≤ D * (8910 * (N * (N + 1))) := by
        exact_mod_cast hhigh
      rw [le_div_iff₀ hclamp']
      generalize (200 : ℚ) * ((N * N * 90 / 20 : ℕ) : ℚ) = c at *
      have hpos : (0 : ℚ) ≤ D * (8910 * (N * (N + 1))) := by positivity
      calc (r : ℚ) * c ≤ 201 / 200 * (x * c) := by nlinarith
        _ ≤ 101 / 100 * (D * (8910 * (N * (N + 1)))) := by linarith
        _ = 101 / 100 * D * 99 * N * (N + 1) * (90 : ℕ) := by push_cast; ring

/-- A full window of one difficulty and a timestamp that jumps back each time. -/
theorem retarget_bounded_steady :
    retargetWindow steadyTimestamps.reverse (steadyDifficulties 1000000) = 60 ∧
    (99 / 100 : ℚ) * (1000000 : ℕ) * 99 / 600 - 1 ≤
      (nextDifficulty false steadyTimestamps.reverse (steadyDifficulties 1000000)).toNat := by
  refine ⟨by decide +kernel, (retarget_bounded false steadyTimestamps.reverse (steadyDifficulties 1000000)
    (by decide +kernel) (N := 60) (T := 90) ?_ ?_ rfl ?_).1⟩
  · decide +kernel
  · decide +kernel
  · decide +kernel

end Discrete.L3
