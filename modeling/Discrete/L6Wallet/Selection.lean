import Mathlib.Data.List.Sort
import Discrete.Core.Greedy
import Discrete.L6Wallet.Output

/-!
# Coin selection (`PqSender.cpp`)

The inputs of a payment: largest first until the payment is covered, then the
smallest leftovers under keys the payment already reveals. `Selection` is a growing
set of inputs that stays within the caps consensus sets on the number of inputs and
of distinct spend keys; its fields carry that, and that its key set and its sum are
those of its inputs.

`std::sort` is not stable, so the order of equal amounts is the library's: any
`LargestFirst` order.

* `coverLoop_inputs`: the covering loop is the greedy pass of `Core.Greedy`.
* `cover_reaches`: it reaches the payment exactly when the heaviest inputs under
  the leading keys do.
* `cover_complete_iff`: it finds a covering set whenever there is one exactly when
  the leading keys are as good as any others; always before grouped authorization
  (`leadingSuffice_ungrouped`).
-/
namespace Discrete.L6
open UInt64 List L1 L2 Greedy

/-- mirrors PqWallet.h:55-66 -/
inductive PqDepositScheme where
  | aggregatedMultikey | singleKeyIndex
  deriving DecidableEq

def pqPrimaryDeposit : UInt32 := 0xFFFFFFFF
def pqUnattributedDeposit : UInt32 := 0xFFFFFFFE
def pqMaxDepositRoute : UInt64 := 0xFFFFFFFD

structure PqSpendInput where
  prevTxid : Hash
  prevOutIndex : UInt32
  amount : UInt64
  rho : Rho
  depositIndex : UInt32
  deriving DecidableEq

/-- mirrors PqSender.cpp:42-47 -/
def keyGroupOf (scheme : PqDepositScheme) (inp : PqSpendInput) : UInt32 :=
  if scheme = .singleKeyIndex ∨ inp.depositIndex = pqUnattributedDeposit then pqPrimaryDeposit
  else inp.depositIndex

abbrev InputCaps := Greedy.Caps

/-- mirrors PqSender.cpp:59-66 -/
def capsFor (signing : PqSigningContext) : InputCaps :=
  ⟨if signing.groupedAuth then maxPqGroupedInputsPerTx else maxPqInputsPerTx, maxPqInputsPerTx⟩

/-- `std::numeric_limits<uint64_t>::max()` -/
def uint64Max : UInt64 := 0xFFFFFFFFFFFFFFFF

def amountOf (inp : PqSpendInput) : Nat := inp.amount.toNat

/-- A sum that stays below `max - x` does not wrap when `x` is added. -/
theorem toNat_add_of_le {a x : UInt64} (h : a ≤ uint64Max - x) : (a + x).toNat = a.toNat + x.toNat := by
  have hx := x.toNat_lt
  have hle : x ≤ uint64Max := by
    rw [le_iff_toNat_le]
    show x.toNat ≤ 2 ^ 64 - 1
    omega
  rw [le_iff_toNat_le, UInt64.toNat_sub_of_le _ _ hle] at h
  have hmax : uint64Max.toNat = 2 ^ 64 - 1 := rfl
  rw [UInt64.toNat_add]
  omega

theorem le_max_sub_iff {a x : UInt64} : a ≤ uint64Max - x ↔ a.toNat + x.toNat < 2 ^ 64 := by
  have hx := x.toNat_lt
  have hmax : uint64Max.toNat = 2 ^ 64 - 1 := rfl
  have hle : x ≤ uint64Max := by
    rw [le_iff_toNat_le]
    omega
  rw [le_iff_toNat_le, UInt64.toNat_sub_of_le _ _ hle]
  omega

/-! ## A selection within the caps -/

/-- mirrors PqSender.cpp:69-95 -/
structure Selection (scheme : PqDepositScheme) (caps : InputCaps) where
  inputs : List PqSpendInput
  keys : Finset UInt32
  sum : UInt64
  keys_eq : keys = keySet (keyGroupOf scheme) inputs
  sum_eq : sum.toNat = weight amountOf inputs
  feasible : Feasible caps (keyGroupOf scheme) inputs

namespace Selection

variable {scheme : PqDepositScheme} {caps : InputCaps}

def empty (scheme : PqDepositScheme) (caps : InputCaps) : Selection scheme caps :=
  ⟨[], ∅, 0, rfl, rfl, Feasible.nil _ _⟩

def canTake (s : Selection scheme caps) (x : PqSpendInput) : Bool :=
  if s.inputs.length ≥ caps.total then false
  else if keyGroupOf scheme x ∉ s.keys ∧ s.keys.card ≥ caps.keys then false
  else decide (s.sum ≤ uint64Max - x.amount)

/-- The caps leave room for `x`, and the sum does not overflow. -/
theorem canTake_iff {s : Selection scheme caps} {x : PqSpendInput} :
    s.canTake x = true ↔ Fits caps (keyGroupOf scheme) s.inputs x ∧ weight amountOf s.inputs + x.amount.toNat < 2 ^ 64 := by
  have hsum := s.sum_eq
  unfold canTake Fits
  rw [← s.keys_eq, ← hsum, ← le_max_sub_iff]
  split
  · rename_i h
    simp [Nat.not_lt.mpr h]
  · rename_i h
    split
    · rename_i h'
      simp [h'.1, Nat.not_lt.mpr h'.2]
    · rename_i h'
      have hkeys : keyGroupOf scheme x ∈ s.keys ∨ s.keys.card < caps.keys := by
        by_contra hno
        have hno := not_or.mp hno
        exact h' ⟨hno.1, not_lt.mp hno.2⟩
      simp [Nat.lt_of_not_le h, hkeys]

def take (s : Selection scheme caps) (x : PqSpendInput) (h : s.canTake x = true) : Selection scheme caps where
  inputs := s.inputs ++ [x]
  keys := insert (keyGroupOf scheme x) s.keys
  sum := s.sum + x.amount
  keys_eq := by rw [keySet_concat, s.keys_eq]
  sum_eq := by
    obtain ⟨-, hlt⟩ := canTake_iff.mp h
    rw [weight_append, toNat_add_of_le (le_max_sub_iff.mpr (by rw [s.sum_eq]; exact hlt)), s.sum_eq]
    simp [amountOf]
  feasible := s.feasible.concat (canTake_iff.mp h).1

/-- The last input taken goes; on an empty selection nothing happens (the source
never drops from one). -/
def drop (s : Selection scheme caps) : Selection scheme caps where
  inputs := s.inputs.dropLast
  keys := keySet (keyGroupOf scheme) s.inputs.dropLast
  sum := s.sum - ((s.inputs.getLast?).map PqSpendInput.amount).getD 0
  keys_eq := rfl
  sum_eq := by
    have hsum := s.sum_eq
    rcases eq_nil_or_concat s.inputs with hnil | ⟨l, x, hl⟩
    · rw [hnil] at hsum ⊢
      simpa using hsum
    · rw [concat_eq_append] at hl
      rw [hl] at hsum ⊢
      rw [weight_append, weight_cons, weight_nil, Nat.add_zero, amountOf] at hsum
      rw [dropLast_concat, getLast?_concat, Option.map_some, Option.getD_some,
        UInt64.toNat_sub_of_le _ _ (le_iff_toNat_le.mpr (by omega))]
      omega
  feasible := s.feasible.subperm (dropLast_sublist _).subperm

end Selection

/-! ## Source filter and order -/

/-- mirrors PqSender.cpp:113-122 -/
def filterBuckets (available : List PqSpendInput) (sourceBuckets : List UInt32) : List PqSpendInput :=
  if sourceBuckets = [] then available
  else available.filter fun si => decide (si.depositIndex ∈ sourceBuckets)

theorem filterBuckets_sublist (available : List PqSpendInput) (sourceBuckets : List UInt32) :
    (filterBuckets available sourceBuckets).Sublist available := by
  unfold filterBuckets
  split
  · exact List.Sublist.refl _
  · exact filter_sublist

/-- What `std::sort` with "larger amount first" may return. -/
structure LargestFirst where
  sort : List PqSpendInput → List PqSpendInput
  perm : ∀ l, (sort l).Perm l
  sorted : ∀ l, (sort l).Pairwise fun a b => amountOf b ≤ amountOf a

/-- The stable one. -/
def LargestFirst.stable : LargestFirst where
  sort l := l.insertionSort fun a b => amountOf b ≤ amountOf a
  perm l := perm_insertionSort _ l
  sorted l := by
    have : Std.Total fun a b : PqSpendInput => amountOf b ≤ amountOf a := ⟨fun a b => Nat.le_total _ _⟩
    have : IsTrans PqSpendInput fun a b => amountOf b ≤ amountOf a := ⟨fun _ _ _ hab hbc => hbc.trans hab⟩
    exact pairwise_insertionSort _ l

/-- The spendable funds, saturating.
mirrors PqSender.cpp:210-217 -/
def totalAvail : UInt64 → List PqSpendInput → UInt64
  | acc, [] => acc
  | acc, si :: l => if acc > uint64Max - si.amount then uint64Max else totalAvail (acc + si.amount) l

theorem totalAvail_toNat : ∀ (acc : UInt64) (l : List PqSpendInput),
    (totalAvail acc l).toNat = min (2 ^ 64 - 1) (acc.toNat + weight amountOf l)
  | acc, [] => by
    have := acc.toNat_lt
    rw [totalAvail, weight_nil]
    omega
  | acc, si :: l => by
    rw [totalAvail, weight_cons, amountOf]
    split
    · rename_i h
      have hlt := mt le_max_sub_iff.mpr (UInt64.not_le.mpr h)
      have hmax : uint64Max.toNat = 2 ^ 64 - 1 := rfl
      omega
    · rename_i h
      rw [totalAvail_toNat, toNat_add_of_le (UInt64.not_lt.mp h)]
      omega

/-! ## Covering the payment -/

variable {scheme : PqDepositScheme} {caps : InputCaps}

/-- The selection and the candidates passed over.
mirrors PqSender.cpp:219-231 -/
def coverLoop (required : UInt64) : Selection scheme caps → List PqSpendInput → List PqSpendInput →
    Selection scheme caps × List PqSpendInput
  | s, skipped, [] => (s, skipped)
  | s, skipped, si :: l =>
    if required ≤ s.sum then coverLoop required s (skipped ++ [si]) l
    else if h : s.canTake si = true then coverLoop required (s.take si h) skipped l
    else coverLoop required s (skipped ++ [si]) l

/-- With a total below 2^64 the loop is the greedy pass that stops at the goal. -/
theorem coverLoop_inputs (required : UInt64) : ∀ {l : List PqSpendInput} {s : Selection scheme caps}
    {skipped : List PqSpendInput}, weight amountOf s.inputs + weight amountOf l < 2 ^ 64 →
    (coverLoop required s skipped l).1.inputs = gather amountOf caps (keyGroupOf scheme) required.toNat s.inputs l
  | [], _, _, _ => rfl
  | si :: l, s, skipped, hlt => by
    rw [weight_cons, amountOf] at hlt
    have hdone : required ≤ s.sum ↔ required.toNat ≤ weight amountOf s.inputs := by
      rw [le_iff_toNat_le, s.sum_eq]
    rw [coverLoop, gather]
    by_cases hreached : required ≤ s.sum
    · rw [if_pos hreached, if_pos (hdone.mp hreached)]
      exact coverLoop_inputs required (by omega)
    · rw [if_neg hreached, if_neg (mt hdone.mpr hreached)]
      by_cases hfits : Fits caps (keyGroupOf scheme) s.inputs si
      · have hcan : s.canTake si = true := Selection.canTake_iff.mpr ⟨hfits, by omega⟩
        rw [dif_pos hcan, if_pos hfits]
        apply coverLoop_inputs required
        simp only [Selection.take, weight_append, weight_cons, weight_nil, amountOf]
        omega
      · have hcan : ¬ s.canTake si = true := fun h => hfits (Selection.canTake_iff.mp h).1
        rw [dif_neg hcan, if_neg hfits]
        exact coverLoop_inputs required (by omega)

/-- Every candidate is taken or passed over. -/
theorem coverLoop_perm (required : UInt64) : ∀ (l : List PqSpendInput) (s : Selection scheme caps)
    (skipped : List PqSpendInput),
    ((coverLoop required s skipped l).1.inputs ++ (coverLoop required s skipped l).2).Perm
      (s.inputs ++ skipped ++ l)
  | [], _, _ => by simp [coverLoop]
  | si :: l, s, skipped => by
    have hskip : (s.inputs ++ (skipped ++ [si]) ++ l).Perm (s.inputs ++ skipped ++ si :: l) := by simp
    have htake : ((s.inputs ++ [si]) ++ skipped ++ l).Perm (s.inputs ++ skipped ++ si :: l) := by
      rw [append_assoc, append_assoc, append_assoc]
      refine List.Perm.append_left _ ?_
      rw [singleton_append]
      exact perm_middle.symm
    rw [coverLoop]
    split
    · exact (coverLoop_perm required l _ _).trans hskip
    · split
      · exact (coverLoop_perm required l _ _).trans htake
      · exact (coverLoop_perm required l _ _).trans hskip

/-- The covering inputs of a payment and the candidates left over. -/
def cover (scheme : PqDepositScheme) (caps : InputCaps) (required : UInt64) (sorted : List PqSpendInput) :
    Selection scheme caps × List PqSpendInput :=
  coverLoop required (Selection.empty scheme caps) [] sorted

theorem cover_perm (scheme : PqDepositScheme) (caps : InputCaps) (required : UInt64) (sorted : List PqSpendInput) :
    ((cover scheme caps required sorted).1.inputs ++ (cover scheme caps required sorted).2).Perm sorted := by
  simpa [cover, Selection.empty] using coverLoop_perm required sorted (Selection.empty scheme caps) []

theorem cover_sum {required : UInt64} {sorted : List PqSpendInput} (hlt : weight amountOf sorted < 2 ^ 64) :
    (cover scheme caps required sorted).1.sum.toNat =
      weight amountOf (gather amountOf caps (keyGroupOf scheme) required.toNat [] sorted) := by
  have hempty : weight amountOf (Selection.empty scheme caps).inputs + weight amountOf sorted < 2 ^ 64 := by
    simpa [Selection.empty] using hlt
  rw [(cover scheme caps required sorted).1.sum_eq, cover, coverLoop_inputs required hempty]
  rfl

/-- The payment is covered exactly when the heaviest inputs under the leading keys cover it. -/
theorem cover_reaches {required : UInt64} {sorted : List PqSpendInput} (hlt : weight amountOf sorted < 2 ^ 64) :
    required ≤ (cover scheme caps required sorted).1.sum ↔
      required.toNat ≤ weight amountOf (top caps (keyGroupOf scheme)
        (leading caps.keys (keyGroupOf scheme) ∅ sorted) sorted) := by
  rw [le_iff_toNat_le, cover_sum hlt]
  exact gather_reaches amountOf sorted

/-- No covering set is missed exactly when the leading keys suffice. -/
theorem cover_complete_iff (scheme : PqDepositScheme) (caps : InputCaps) (required : UInt64)
    {sorted : List PqSpendInput} (hlt : weight amountOf sorted < 2 ^ 64)
    (hsorted : sorted.Pairwise fun a b => amountOf b ≤ amountOf a) :
    ((cover scheme caps required sorted).1.sum < required →
        ¬ ∃ s : List PqSpendInput, s.Subperm sorted ∧ Feasible caps (keyGroupOf scheme) s ∧
          required.toNat ≤ weight amountOf s) ↔
      LeadingSuffice amountOf caps (keyGroupOf scheme) required.toNat sorted := by
  rw [← gather_complete_iff amountOf hsorted, lt_iff_toNat_lt, cover_sum hlt, not_le]

/-- Before grouped authorization every input may bring its own key, and nothing is missed. -/
theorem leadingSuffice_ungrouped {signing : PqSigningContext} (hg : signing.groupedAuth = false)
    (scheme : PqDepositScheme) (required : Nat) {sorted : List PqSpendInput}
    (hsorted : sorted.Pairwise fun a b => amountOf b ≤ amountOf a) :
    LeadingSuffice amountOf (capsFor signing) (keyGroupOf scheme) required sorted :=
  LeadingSuffice.of_total_le amountOf required hsorted (by simp [capsFor, hg])

/-! ## Sweeping leftovers -/

def pqSweepKeepOutputs : Nat := 32
def pqSweepMaxExtraInputs : Nat := 8
def pqSweepValueDivisor : UInt64 := 10
def pqSweepMaxExtraKeyReferences : Nat := 64

/-- `break` ends the loop, `continue` goes on to the next candidate.
mirrors PqSender.cpp:264-276 -/
def sweepLoop (limit : Nat) (valueBudget : UInt64) : Selection scheme caps → (sweptValue : UInt64) →
    (remaining swept : Nat) → List PqSpendInput → Selection scheme caps
  | s, _, _, _, [] => s
  | s, sweptValue, remaining, swept, si :: l =>
    if swept ≥ limit then s
    else if remaining ≤ pqSweepKeepOutputs then s
    else if si.amount > valueBudget - sweptValue then s
    else if keyGroupOf scheme si ∉ s.keys then sweepLoop limit valueBudget s sweptValue remaining swept l
    else if h : s.canTake si = true then
      sweepLoop limit valueBudget (s.take si h) (sweptValue + si.amount) (remaining - 1) (swept + 1) l
    else sweepLoop limit valueBudget s sweptValue remaining swept l

/-- mirrors PqSender.cpp:260-277 -/
def sweep (signing : PqSigningContext) (funds : UInt64) (s : Selection scheme caps)
    (skipped : List PqSpendInput) : Selection scheme caps :=
  let limit := if signing.groupedAuth then pqSweepMaxExtraKeyReferences else pqSweepMaxExtraInputs
  sweepLoop limit (funds / pqSweepValueDivisor) s 0 skipped.length 0 skipped.reverse

/-- What the sweep may add behind the selection `s`, from the candidates `l` of which
`remaining` are left over. -/
structure Swept (limit budget remaining : Nat) (s : Selection scheme caps) (l extra : List PqSpendInput) : Prop where
  drawn : extra.Sublist l
  keys : ∀ si ∈ extra, keyGroupOf scheme si ∈ s.keys
  count : extra.length ≤ limit
  value : weight amountOf extra ≤ budget
  kept : extra ≠ [] → pqSweepKeepOutputs + extra.length ≤ remaining

theorem Swept.nothing (limit budget remaining : Nat) (s : Selection scheme caps) (l : List PqSpendInput) :
    Swept limit budget remaining s l [] :=
  ⟨nil_sublist l, by simp, by simp, by simp, by simp⟩

theorem Swept.skip {limit budget remaining : Nat} {s : Selection scheme caps} {l extra : List PqSpendInput}
    (h : Swept limit budget remaining s l extra) (si : PqSpendInput) : Swept limit budget remaining s (si :: l) extra :=
  { h with drawn := h.drawn.cons si }

/-- The shares of the rules shrink with every input that is taken. -/
theorem Swept.take {limit budget remaining : Nat} {s : Selection scheme caps} {l extra : List PqSpendInput}
    {si : PqSpendInput} (hkey : keyGroupOf scheme si ∈ s.keys) (hcan : s.canTake si = true)
    (hremaining : pqSweepKeepOutputs < remaining) (h : Swept limit budget (remaining - 1) (s.take si hcan) l extra) :
    Swept (limit + 1) (amountOf si + budget) remaining s (si :: l) (si :: extra) where
  drawn := h.drawn.cons_cons si
  keys := by
    have hsame : (s.take si hcan).keys = s.keys := Finset.insert_eq_of_mem hkey
    intro x hx
    rcases mem_cons.mp hx with rfl | hx
    · exact hkey
    · exact hsame ▸ h.keys x hx
  count := Nat.succ_le_succ h.count
  value := by
    rw [weight_cons]
    exact Nat.add_le_add_left h.value _
  kept := fun _ => by
    rw [length_cons]
    rcases eq_nil_or_concat extra with rfl | ⟨_, _, hne⟩
    · exact hremaining
    · have := h.kept (by rw [hne]; simp)
      omega

/-- The sweep keeps what is there and adds to it within its rules. -/
theorem sweepLoop_swept (limit : Nat) (budget : UInt64) : ∀ (l : List PqSpendInput)
    (s : Selection scheme caps) (value : UInt64) (remaining swept : Nat), value ≤ budget →
    ∃ extra : List PqSpendInput, Swept (limit - swept) (budget.toNat - value.toNat) remaining s l extra ∧
      (sweepLoop limit budget s value remaining swept l).inputs = s.inputs ++ extra
  | [], s, _, _, _, _ => ⟨[], Swept.nothing _ _ _ s [], by simp [sweepLoop]⟩
  | si :: l, s, value, remaining, swept, hvalue => by
    have hstop : ∃ extra, Swept (limit - swept) (budget.toNat - value.toNat) remaining s (si :: l) extra ∧
        s.inputs = s.inputs ++ extra := ⟨[], Swept.nothing _ _ _ s _, by simp⟩
    have hskip : ∃ extra, Swept (limit - swept) (budget.toNat - value.toNat) remaining s (si :: l) extra ∧
        (sweepLoop limit budget s value remaining swept l).inputs = s.inputs ++ extra := by
      obtain ⟨extra, hextra, heq⟩ := sweepLoop_swept limit budget l s value remaining swept hvalue
      exact ⟨extra, hextra.skip si, heq⟩
    rw [sweepLoop]
    split
    · exact hstop
    · rename_i hlimit
      split
      · exact hstop
      · rename_i hremaining
        split
        · exact hstop
        · rename_i hamount
          split
          · exact hskip
          · rename_i hkey
            split
            · rename_i hcan
              -- what is taken is within the room that is left
              have hroom := le_iff_toNat_le.mp (UInt64.not_lt.mp hamount)
              rw [UInt64.toNat_sub_of_le _ _ hvalue] at hroom
              have hle := le_iff_toNat_le.mp hvalue
              have hbudget := budget.toNat_lt
              have hnat : (value + si.amount).toNat = value.toNat + si.amount.toNat := by
                rw [UInt64.toNat_add]
                omega
              obtain ⟨extra, hextra, heq⟩ := sweepLoop_swept limit budget l (s.take si hcan) (value + si.amount)
                (remaining - 1) (swept + 1) (by rw [le_iff_toNat_le, hnat]; omega)
              refine ⟨si :: extra, ?_, by rw [heq, Selection.take]; simp⟩
              have htaken := hextra.take (not_not.mp hkey) hcan (Nat.lt_of_not_le hremaining)
              rw [hnat, amountOf] at htaken
              have hcount : limit - (swept + 1) + 1 = limit - swept := by omega
              have hvalue' : si.amount.toNat + (budget.toNat - (value.toNat + si.amount.toNat)) =
                  budget.toNat - value.toNat := by omega
              rwa [hcount, hvalue'] at htaken
            · exact hskip

/-- The most inputs a sweep adds. -/
def sweepLimit (signing : PqSigningContext) : Nat :=
  if signing.groupedAuth then pqSweepMaxExtraKeyReferences else pqSweepMaxExtraInputs

theorem sweep_swept (signing : PqSigningContext) (funds : UInt64) (s : Selection scheme caps)
    (skipped : List PqSpendInput) :
    ∃ extra : List PqSpendInput, Swept (sweepLimit signing) (funds.toNat / 10) skipped.length s skipped.reverse extra ∧
      (sweep signing funds s skipped).inputs = s.inputs ++ extra := by
  obtain ⟨extra, hextra, heq⟩ := sweepLoop_swept (sweepLimit signing) (funds / pqSweepValueDivisor) skipped.reverse s 0
    skipped.length 0 UInt64.zero_le
  refine ⟨extra, ?_, heq⟩
  have hbudget : (funds / pqSweepValueDivisor).toNat = funds.toNat / 10 := UInt64.toNat_div _ _
  rwa [hbudget] at hextra

end Discrete.L6
