import Mathlib.Data.List.Lex
import Mathlib.Data.Prod.Lex
import Discrete.L6Wallet.Draft

/-!
# Consolidation (`PqSender.cpp`)

A consolidation merges the smallest spendable inputs into one output. It is planned
by one pass, smallest first (`selectConsolidationInputs`), and carried out by
another: the planned inputs are handed to `buildPqSend`, which selects among them
largest first and stops when the payment is covered.

`useful_plan_builds`: the second pass takes exactly what the first one planned. The
planned inputs are within the caps in any order, and they add up to the amount and
the fee, so no part of them covers the payment. That takes positive amounts: the
largest-first pass comes to an amount of zero last, when the payment is covered, and
leaves it behind.
-/
namespace Discrete.L6
open L1 L2 L3 Codec Greedy

structure PqConsolidationPlan where
  availableInputs : Nat
  selectedInputs : Nat
  resultingOutputs : Nat
  amount : UInt64
  fee : UInt64
  deriving DecidableEq

def PqConsolidationPlan.useful (p : PqConsolidationPlan) : Bool :=
  decide (p.selectedInputs ≥ 2) && decide (p.resultingOutputs < p.selectedInputs) && decide (p.amount > 0)

structure PqConsolidationRequest where
  explicitFee : UInt64
  genesisId : Hash
  signingHeight : UInt32
  deliveryV2Height : UInt32
  scheme : PqDepositScheme
  sourceBuckets : List UInt32
  /-- `destination` when `hasDestination` is set -/
  destination : Option PqSendOutput

structure PqConsolidationResult where
  plan : PqConsolidationPlan
  transaction : PqSendResult

inductive ConsolidationError where
  | notUseful | send (e : SendError) | planMismatch | inputNotSpent
  deriving DecidableEq, Repr

def ConsolidationError.text : ConsolidationError → String
  | .notUseful =>
    "no useful consolidation batch (fewer than two spendable inputs, or the fee would consume them)"
  | .send e => e.text
  | .planMismatch => "buildPqConsolidation: final transaction does not match its plan"
  | .inputNotSpent => "buildPqConsolidation: planned input was not spent"

/-! ## The order -/

/-- mirrors PqSender.cpp:97-100 -/
def sameOutpoint (a b : PqSpendInput) : Bool :=
  decide (a.prevOutIndex = b.prevOutIndex) && decide (a.prevTxid = b.prevTxid)

/-- `memcmp` compares the bytes as numbers. -/
def bytesOf (h : Hash) : List Nat := h.val.map UInt8.toNat

/-- mirrors PqSender.cpp:104-110 -/
def smallestFirst (lhs rhs : PqSpendInput) : Bool :=
  if lhs.amount ≠ rhs.amount then decide (lhs.amount < rhs.amount)
  else if bytesOf lhs.prevTxid ≠ bytesOf rhs.prevTxid then decide (bytesOf lhs.prevTxid < bytesOf rhs.prevTxid)
  else decide (lhs.prevOutIndex < rhs.prevOutIndex)

/-- What `std::sort` with `smallestFirst` may return. -/
structure SmallestFirst where
  sort : List PqSpendInput → List PqSpendInput
  perm : ∀ l, (sort l).Perm l
  sorted : ∀ l, (sort l).Pairwise fun a b => smallestFirst b a = false

/-- Amount, transaction and position, compared in this order. -/
def orderKey (si : PqSpendInput) : Nat ×ₗ List Nat ×ₗ Nat :=
  toLex (amountOf si, toLex (bytesOf si.prevTxid, si.prevOutIndex.toNat))

theorem smallestFirst_iff {a b : PqSpendInput} : smallestFirst a b = true ↔ orderKey a < orderKey b := by
  unfold smallestFirst orderKey
  rw [Prod.Lex.toLex_lt_toLex, Prod.Lex.toLex_lt_toLex]
  by_cases hamount : a.amount = b.amount
  · have hnat : amountOf a = amountOf b := congrArg UInt64.toNat hamount
    by_cases htx : bytesOf a.prevTxid = bytesOf b.prevTxid
    · simp [hamount, hnat, htx, UInt32.lt_iff_toNat_lt]
    · simp [hamount, hnat, htx]
  · have hnat : amountOf a ≠ amountOf b := fun h => hamount (UInt64.toNat_inj.mp h)
    rw [if_pos hamount, decide_eq_true_eq, UInt64.lt_iff_toNat_lt]
    simp only [hnat, false_and, or_false]
    rfl

theorem smallestFirst_false_iff {a b : PqSpendInput} : smallestFirst b a = false ↔ orderKey a ≤ orderKey b := by
  rw [← not_lt, ← smallestFirst_iff, Bool.not_eq_true]

/-- The stable one. -/
def SmallestFirst.stable : SmallestFirst where
  sort l := l.insertionSort fun a b => smallestFirst b a = false
  perm l := List.perm_insertionSort _ l
  sorted l := by
    have : Std.Total fun a b : PqSpendInput => smallestFirst b a = false :=
      ⟨fun a b => by simpa only [smallestFirst_false_iff] using le_total _ _⟩
    have : IsTrans PqSpendInput fun a b => smallestFirst b a = false :=
      ⟨fun a b c hab hbc => by
        rw [smallestFirst_false_iff] at hab hbc ⊢
        exact hab.trans hbc⟩
    exact List.pairwise_insertionSort _ l

/-! ## The plan -/

/-- mirrors PqSender.cpp:142-145 -/
def pickLoop {scheme : PqDepositScheme} {caps : InputCaps} :
    Selection scheme caps → List PqSpendInput → Selection scheme caps
  | s, [] => s
  | s, si :: l =>
    if s.inputs.length ≥ caps.total then s
    else if h : s.canTake si = true then pickLoop (s.take si h) l
    else pickLoop s l

def consolidationFee (req : PqConsolidationRequest) : UInt64 :=
  if req.explicitFee ≠ 0 then req.explicitFee else UInt64.ofNat (pqTxFeeFloor minimumFee 0)

def consolidationContext (E : WalletEnv) (req : PqConsolidationRequest) : PqSigningContext :=
  { E.currency.pqSigningContextForHeight req.signingHeight.toNat with chainId := req.genesisId }

structure ConsolidationSelection where
  plan : PqConsolidationPlan
  inputs : List PqSpendInput

/-- mirrors PqSender.cpp:128-154 -/
def selectConsolidationInputs (E : WalletEnv) (order : SmallestFirst) (available : List PqSpendInput)
    (req : PqConsolidationRequest) : ConsolidationSelection :=
  let fee := consolidationFee req
  let filtered := filterBuckets available req.sourceBuckets
  let nothing : ConsolidationSelection := ⟨⟨filtered.length, 0, 0, 0, fee⟩, []⟩
  if filtered.length < 2 then nothing
  else
    let picked := pickLoop (Selection.empty req.scheme (capsFor (consolidationContext E req))) (order.sort filtered)
    if picked.inputs.length < 2 ∨ picked.sum ≤ fee then nothing
    else ⟨⟨filtered.length, picked.inputs.length, 1, picked.sum - fee, fee⟩, picked.inputs⟩

/-- mirrors PqSender.cpp:389-392 -/
def planPqConsolidation (E : WalletEnv) (order : SmallestFirst) (available : List PqSpendInput)
    (req : PqConsolidationRequest) : PqConsolidationPlan :=
  (selectConsolidationInputs E order available req).plan

/-! ## Carrying it out -/

/-- The payment that merges the planned inputs.
mirrors PqSender.cpp:405-417 -/
def consolidationSend (keys : PqWalletKeys) (req : PqConsolidationRequest) (plan : PqConsolidationPlan) :
    PqSendRequest where
  recipients := [{ req.destination.getD ⟨keys.viewPub, keys.spendPub, 0, 0, 0⟩ with amount := plan.amount }]
  explicitFee := plan.fee
  unlockHeight := 0
  extra := []
  genesisId := req.genesisId
  signingHeight := req.signingHeight
  deliveryV2Height := req.deliveryV2Height
  scheme := req.scheme
  sourceBuckets := []
  changeDest := none
  sweepSmallInputs := false

/-- mirrors PqSender.cpp:394-438 -/
def buildPqConsolidation (E : WalletEnv) (order : SmallestFirst) (keys : PqWalletKeys)
    (coins : Nat → Nat → OutputCoins) (available : List PqSpendInput) (req : PqConsolidationRequest) :
    Except ConsolidationError PqConsolidationResult :=
  let selection := selectConsolidationInputs E order available req
  if selection.plan.useful = false then .error .notUseful
  else
    match buildPqSend E keys (consolidationSend keys req selection.plan) coins selection.inputs with
    | .error e => .error (.send e)
    | .ok transaction =>
      if transaction.selected.length ≠ selection.plan.selectedInputs ∨
          transaction.tx.outputs.length ≠ selection.plan.resultingOutputs ∨ transaction.change ≠ 0 ∨
          transaction.sent ≠ selection.plan.amount ∨ transaction.fee ≠ selection.plan.fee ∨
          transaction.tx.outputs.length ≥ transaction.tx.inputs.length then .error .planMismatch
      else if selection.inputs.all (fun picked => transaction.selected.any fun used => sameOutpoint used picked) =
          false then .error .inputNotSpent
      else .ok ⟨selection.plan, transaction⟩

/-! ## What a useful plan says -/

/-- The pass takes inputs of the list it goes over. -/
theorem pickLoop_inputs {scheme : PqDepositScheme} {caps : InputCaps} : ∀ (l : List PqSpendInput)
    (s : Selection scheme caps), ∃ taken :
    List PqSpendInput, taken.Sublist l ∧ (pickLoop s l).inputs = s.inputs ++ taken
  | [], s => ⟨[], List.Sublist.refl _, by simp [pickLoop]⟩
  | si :: l, s => by
    rw [pickLoop]
    split
    · exact ⟨[], List.nil_sublist _, by simp⟩
    · split
      · rename_i hcan
        obtain ⟨taken, hsub, heq⟩ := pickLoop_inputs l (s.take si hcan)
        refine ⟨si :: taken, hsub.cons_cons si, ?_⟩
        rw [heq, Selection.take]
        simp
      · obtain ⟨taken, hsub, heq⟩ := pickLoop_inputs l s
        exact ⟨taken, hsub.cons si, heq⟩

/-- The planned inputs are a selection that is worth more than the fee. -/
structure Planned (E : WalletEnv) (available : List PqSpendInput) (req : PqConsolidationRequest)
    (c : ConsolidationSelection) (s : Selection req.scheme (capsFor (consolidationContext E req))) : Prop where
  inputs : c.inputs = s.inputs
  drawn : s.inputs.Subperm available
  count : c.plan.selectedInputs = s.inputs.length
  merged : 2 ≤ s.inputs.length
  outputs : c.plan.resultingOutputs = 1
  fee : c.plan.fee = consolidationFee req
  pays : consolidationFee req < s.sum
  amount : c.plan.amount = s.sum - consolidationFee req

theorem Planned.of_useful {E : WalletEnv} {order : SmallestFirst} {available : List PqSpendInput}
    {req : PqConsolidationRequest} (h : (planPqConsolidation E order available req).useful = true) :
    ∃ s, Planned E available req (selectConsolidationInputs E order available req) s := by
  unfold planPqConsolidation at h
  have hno : ∀ (n : Nat) (fee : UInt64), PqConsolidationPlan.useful ⟨n, 0, 0, 0, fee⟩ = false := fun _ _ => rfl
  unfold selectConsolidationInputs at h ⊢
  dsimp only at h ⊢
  split
  · rename_i hfew
    rw [if_pos hfew, hno] at h
    cases h
  · rename_i hfew
    rw [if_neg hfew] at h
    split
    · rename_i hsmall
      rw [if_pos hsmall, hno] at h
      cases h
    · rename_i hsmall
      obtain ⟨hmerged, hpays⟩ := not_or.mp hsmall
      obtain ⟨taken, hsub, heq⟩ := pickLoop_inputs (order.sort (filterBuckets available req.sourceBuckets))
        (Selection.empty req.scheme (capsFor (consolidationContext E req)))
      have hdrawn : taken.Subperm available :=
        (hsub.subperm.trans (order.perm _).subperm).trans (filterBuckets_sublist _ _).subperm
      exact ⟨_, rfl, heq ▸ hdrawn, rfl, not_lt.mp hmerged, rfl, rfl, UInt64.not_le.mp hpays, rfl⟩

theorem consolidationFee_ne_zero (req : PqConsolidationRequest) : consolidationFee req ≠ 0 := by
  unfold consolidationFee
  split
  · assumption
  · decide

section
variable {E : WalletEnv} {available : List PqSpendInput} {req : PqConsolidationRequest} {c : ConsolidationSelection}
  {s : Selection req.scheme (capsFor (consolidationContext E req))}

section
variable (h : Planned E available req c s)
include h

/-- Amount and fee are the exact sum of the planned inputs. -/
theorem Planned.sum : c.plan.amount + c.plan.fee = s.sum ∧
    c.plan.amount.toNat + c.plan.fee.toNat = weight amountOf s.inputs ∧ c.plan.amount ≠ 0 := by
  have hlt := UInt64.lt_iff_toNat_lt.mp h.pays
  have hamount : c.plan.amount.toNat = s.sum.toNat - (consolidationFee req).toNat := by
    rw [h.amount, UInt64.toNat_sub_of_le _ _ (UInt64.le_of_lt h.pays)]
  refine ⟨by rw [h.amount, h.fee, UInt64.sub_add_cancel], ?_, ?_⟩
  · rw [hamount, h.fee, ← s.sum_eq]
    omega
  · intro hzero
    rw [hzero, UInt64.toNat_zero] at hamount
    omega

/-- The payment's totals are those of the plan. -/
theorem Planned.totals (keys : PqWalletKeys) :
    sendTotals (consolidationSend keys req c.plan) = .ok (c.plan.amount, c.plan.fee) := by
  obtain ⟨-, hsum, hne⟩ := h.sum
  have hfits : weight amountOf s.inputs < 2 ^ 64 := s.sum_eq ▸ s.sum.toNat_lt
  have hfold : foldSteps addRecipient 0 (consolidationSend keys req c.plan).recipients = .ok c.plan.amount := by
    simp [consolidationSend, foldSteps, addRecipient, hne]
  have hfee : requestFee (consolidationSend keys req c.plan) = c.plan.fee := by
    rw [requestFee, if_pos (by
      show c.plan.fee ≠ 0
      rw [h.fee]
      exact consolidationFee_ne_zero req)]
    rfl
  have hover : ¬ c.plan.amount > uint64Max - c.plan.fee :=
    UInt64.not_lt.mpr (le_max_sub_iff.mpr (by omega))
  rw [sendTotals, if_neg (by simp [consolidationSend]), if_neg (by simp [consolidationSend]), hfold]
  dsimp only
  rw [if_neg (by simp [consolidationSend, maxPqOutputsPerTx]), hfee, if_neg hover]

/-- The largest-first pass takes all that was planned. -/
theorem Planned.covered (keys : PqWalletKeys) (hpos : ∀ si ∈ available, 0 < si.amount) :
    ((selectionFor E (consolidationSend keys req c.plan) c.inputs (c.plan.amount + c.plan.fee)).inputs).Perm c.inputs := by
  have hsort : (candidates E c.inputs (consolidationSend keys req c.plan)).Perm s.inputs := by
    rw [← h.inputs]
    exact E.order.perm _
  have hweight : weight amountOf (candidates E c.inputs (consolidationSend keys req c.plan)) =
      (c.plan.amount + c.plan.fee).toNat := by
    rw [weight_perm amountOf hsort, h.sum.1, s.sum_eq]
  have hfeasible : Feasible (capsFor (signingContext E (consolidationSend keys req c.plan))) (keyGroupOf req.scheme)
      (candidates E c.inputs (consolidationSend keys req c.plan)) :=
    s.feasible.subperm hsort.subperm
  have hposSorted : ∀ si ∈ candidates E c.inputs (consolidationSend keys req c.plan), 0 < amountOf si := by
    intro si hsi
    exact UInt64.lt_iff_toNat_lt.mp (hpos si (h.drawn.subset (hsort.subset hsi)))
  have hall : (selectionFor E (consolidationSend keys req c.plan) c.inputs (c.plan.amount + c.plan.fee)).inputs =
      candidates E c.inputs (consolidationSend keys req c.plan) := by
    have hlt := (c.plan.amount + c.plan.fee).toNat_lt
    show (cover req.scheme _ _ _).1.inputs = _
    rw [cover, coverLoop_inputs _ (by
      rw [hweight]
      simpa [Selection.empty] using hlt)]
    exact gather_all amountOf hfeasible hposSorted (le_of_eq hweight)
  rw [hall]
  exact hsort.trans (List.Perm.of_eq h.inputs.symm)

/-- The payment of a plan goes out with the planned inputs and no change. -/
theorem Planned.sent (hW : E.W.Correct) (hs : Scheduled E.currency)
    (keys : PqWalletKeys) (coins : Nat → Nat → OutputCoins) (hpos : ∀ si ∈ available, 0 < si.amount) :
    ∃ r, buildPqSend E keys (consolidationSend keys req c.plan) coins c.inputs = .ok r ∧
      r.selected.Perm c.inputs ∧ r.sent = c.plan.amount ∧ r.fee = c.plan.fee ∧ r.change = 0 := by
  have hperm := h.covered keys hpos
  -- without a sweep the selection is the cover
  have hcover : selectionFor E (consolidationSend keys req c.plan) c.inputs (c.plan.amount + c.plan.fee) =
      (cover req.scheme (capsFor (signingContext E (consolidationSend keys req c.plan)))
        (c.plan.amount + c.plan.fee) (candidates E c.inputs (consolidationSend keys req c.plan))).1 := rfl
  have hsum : (selectionFor E (consolidationSend keys req c.plan) c.inputs (c.plan.amount + c.plan.fee)).sum =
      c.plan.amount + c.plan.fee := by
    rw [← UInt64.toNat_inj, Selection.sum_eq, weight_perm amountOf hperm, h.inputs, h.sum.1, s.sum_eq]
  obtain ⟨r, hr, hselected, hsent, hfee, hchange⟩ := buildPqSend_ok hW hs keys coins c.inputs (h.totals keys)
    (hcover ▸ UInt64.le_of_eq hsum.symm) (UInt64.le_of_eq hsum.symm) (by
      simp [consolidationSend, outputSizeBound])
  refine ⟨r, hr, hselected ▸ hperm, hsent, hfee, ?_⟩
  rw [hchange, hsum, UInt64.sub_self]

/-- The transaction of such a payment, input by input and output by output. -/
theorem Planned.transaction (keys : PqWalletKeys) {coins : Nat → Nat → OutputCoins}
    {r : PqSendResult} (hr : buildPqSend E keys (consolidationSend keys req c.plan) coins c.inputs = .ok r)
    (hselected : r.selected.Perm c.inputs) (hchange : r.change = 0) :
    (r.tx.pqInputs.map fun i => (i.prevTxid, i.prevOutIndex)).Perm
        (c.inputs.map fun si => (si.prevTxid, si.prevOutIndex)) ∧
      r.tx.inputs.length = c.plan.selectedInputs ∧ r.tx.outputs.map (fun out => out.amount) = [c.plan.amount] := by
  obtain ⟨draft, attempt, hsent⟩ := Sent.of_ok hr
  obtain ⟨fee, u, hb⟩ := Built.of_ok hsent.built
  rw [hsent.tx_eq]
  refine ⟨?_, ?_, ?_⟩
  · rw [hb.outpoints]
    exact hselected.map _
  · rw [hb.tx_inputs, List.length_map, spendInputs_length, List.length_zip, hb.auth_length, Nat.min_self,
      hselected.length_eq, h.inputs, h.count]
  · rw [hb.amounts, sendOutputs_amounts, if_pos hchange]
    rfl

end

/-- A useful plan is carried out as planned: the transaction spends exactly the planned
inputs, pays their sum less the fee to one output and leaves no change. -/
theorem useful_plan_builds (hW : E.W.Correct) (hs : Scheduled E.currency) (order : SmallestFirst)
    (keys : PqWalletKeys) (coins : Nat → Nat → OutputCoins) (hpos : ∀ si ∈ available, 0 < si.amount)
    (huseful : (planPqConsolidation E order available req).useful = true) :
    ∃ r, buildPqConsolidation E order keys coins available req = .ok r ∧
      r.plan = planPqConsolidation E order available req ∧
      (selectConsolidationInputs E order available req).inputs.Subperm available ∧
      (selectConsolidationInputs E order available req).inputs.length = r.plan.selectedInputs ∧
      r.transaction.selected.Perm (selectConsolidationInputs E order available req).inputs ∧
      (r.transaction.tx.pqInputs.map fun i => (i.prevTxid, i.prevOutIndex)).Perm
        ((selectConsolidationInputs E order available req).inputs.map fun si => (si.prevTxid, si.prevOutIndex)) ∧
      r.transaction.tx.inputs.length = r.plan.selectedInputs ∧
      r.transaction.tx.outputs.map (fun out => out.amount) = [r.plan.amount] ∧ r.transaction.change = 0 ∧
      r.plan.amount.toNat + r.plan.fee.toNat =
        weight amountOf (selectConsolidationInputs E order available req).inputs := by
  obtain ⟨s, hplan⟩ := Planned.of_useful huseful
  obtain ⟨r, hr, hselected, hsent, hfee, hchange⟩ := hplan.sent hW hs keys coins hpos
  obtain ⟨hspent, hcount, hamounts⟩ := hplan.transaction keys hr hselected hchange
  obtain ⟨-, hexact, -⟩ := hplan.sum
  have houtputs : r.tx.outputs.length = 1 := by simpa using congrArg List.length hamounts
  have hmatch : ¬ (r.selected.length ≠ (selectConsolidationInputs E order available req).plan.selectedInputs ∨
      r.tx.outputs.length ≠ (selectConsolidationInputs E order available req).plan.resultingOutputs ∨ r.change ≠ 0 ∨
      r.sent ≠ (selectConsolidationInputs E order available req).plan.amount ∨
      r.fee ≠ (selectConsolidationInputs E order available req).plan.fee ∨
      r.tx.outputs.length ≥ r.tx.inputs.length) := by
    have hmerged := hplan.merged
    rw [hselected.length_eq, hplan.inputs, hcount, hplan.count, hplan.outputs, houtputs]
    simp only [ne_eq, hchange, hsent, hfee, not_true, false_or]
    omega
  have hall : ((selectConsolidationInputs E order available req).inputs.all fun picked =>
      r.selected.any fun used => sameOutpoint used picked) = true := by
    rw [List.all_eq_true]
    intro picked hpicked
    rw [List.any_eq_true]
    exact ⟨picked, hselected.symm.subset hpicked, by simp [sameOutpoint]⟩
  refine ⟨⟨_, r⟩, ?_, rfl, hplan.inputs ▸ hplan.drawn, by rw [hplan.inputs, hplan.count], hselected, hspent, hcount,
    hamounts, hchange, hplan.inputs ▸ hexact⟩
  have huseful' : ¬ (selectConsolidationInputs E order available req).plan.useful = false := by
    rw [Bool.not_eq_false]
    exact huseful
  unfold buildPqConsolidation
  dsimp only
  rw [if_neg huseful', hr]
  dsimp only
  rw [if_neg hmatch, hall]
  rfl

end

def toyConsolidation : PqConsolidationRequest where
  explicitFee := 1
  genesisId := nullHash
  signingHeight := 0
  deliveryV2Height := 0xFFFFFFFF
  scheme := .aggregatedMultikey
  sourceBuckets := []
  destination := none

/-- Two outputs of two deposits become one. -/
theorem useful_plan_builds_toy :
    ∃ r, buildPqConsolidation toyWalletEnv .stable toyKeys toyCoins
        [toyInput 0 100 pqPrimaryDeposit, toyInput 1 50 3] toyConsolidation = .ok r ∧
      r.plan = ⟨2, 2, 1, 149, 1⟩ ∧ r.transaction.tx.outputs.map (fun out => out.amount) = [149] := by
  have hplan : planPqConsolidation toyWalletEnv .stable [toyInput 0 100 pqPrimaryDeposit, toyInput 1 50 3]
      toyConsolidation = ⟨2, 2, 1, 149, 1⟩ := by decide +kernel
  obtain ⟨r, hr, hrplan, -, -, -, -, -, hamounts, -⟩ := useful_plan_builds toyWallet_correct
    (show Scheduled toyWalletEnv.currency from Nat.le_refl _) .stable toyKeys toyCoins
    (show ∀ si ∈ [toyInput 0 100 pqPrimaryDeposit, toyInput 1 50 3], 0 < si.amount by decide +kernel)
    (show (planPqConsolidation toyWalletEnv .stable [toyInput 0 100 pqPrimaryDeposit, toyInput 1 50 3]
      toyConsolidation).useful = true by rw [hplan]; rfl)
  rw [hplan] at hrplan
  rw [hrplan] at hamounts
  exact ⟨r, hr, hrplan, hamounts⟩

end Discrete.L6
