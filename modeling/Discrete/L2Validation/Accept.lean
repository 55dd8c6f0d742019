import Discrete.L2Validation.InputChecks

/-!
# What suffices for acceptance

The converses of `SemanticOk.of_ok` and `InputsOk.of_ok`: a transfer with those
properties passes `checkPqTransactionSemantic` and `checkPqTransactionInputs`. The
second asks besides that the referenced amounts fit one word.
-/
namespace Discrete.L2
open List L1 Codec

theorem SemanticOk.accepted {tx : Transaction} (h : SemanticOk tx) : checkPqTransactionSemantic tx = .ok () := by
  have hin : forEach (semanticInput tx.inputs) (List.range tx.inputs.length) = .ok () :=
    forEach_ok.mpr fun i hi => semanticInput_ok.mpr (h.inputs i (mem_range.mp hi))
  have hout : forEach semanticOutput tx.outputs = .ok () :=
    forEach_ok.mpr fun out ho => semanticOutput_ok.mpr (h.outputs out ho)
  unfold checkPqTransactionSemantic
  rw [if_neg (by simp [h.transfer]), if_neg (by simp [h.inputs_ne, h.outputs_ne]),
    if_neg (Nat.not_lt.mpr h.inputs_le), if_neg (Nat.not_lt.mpr h.outputs_le), if_neg (by simp [h.unlock]), hin]
  dsimp only
  rw [if_neg (Nat.not_lt.mpr h.keys_le), if_neg (by simp [h.sigs]), if_neg (Nat.not_lt.mpr h.extra_le), hout]
  exact if_neg (Nat.not_lt.mpr h.size_le)

/-- `sum + x` does not wrap. -/
theorem not_add_lt {a b : UInt64} (h : a.toNat + b.toNat < 2 ^ 64) : ¬ a + b < a := by
  rw [UInt64.lt_iff_toNat_lt, UInt64.toNat_add]
  omega

/-- The ownership loop runs through. -/
theorem scan_accepted {P : Primitives} : ∀ {l : List (TransactionInput × PqResolvedInput)} {s : InputScan},
    (∀ x ∈ l, ∃ inp, OwnedInput P x inp) → (s.computed ++ l.filterMap (entryNullifier P)).Nodup →
    s.sumIn.toNat + (l.map fun x => x.2.amount.toNat).sum < 2 ^ 64 → ∃ t, foldSteps (scanInput P) s l = .ok t
  | [], s, _, _, _ => ⟨s, rfl⟩
  | x :: l, s, hown, hnd, hlt => by
    obtain ⟨inp, ho⟩ := hown x (by simp)
    have hentry : entryNullifier P x = some (pqNullifier P inp) := by simp [entryNullifier, ho.pq]
    rw [filterMap_cons_some hentry] at hnd
    rw [map_cons, sum_cons] at hlt
    have hfresh : pqNullifier P inp ∉ s.computed := by
      intro hmem
      exact (nodup_append.mp hnd).2.2 _ hmem _ mem_cons_self rfl
    have hstep : scanInput P s x = .ok ⟨s.computed ++ [pqNullifier P inp], s.sumIn + x.2.amount⟩ := by
      unfold scanInput
      rw [ho.pq]
      dsimp only
      rw [if_neg (by simp [ho.fields]), if_neg (by simp [ho.present]), if_neg (by simp [ho.spendable]),
        if_neg (by simp [ho.commit]), if_neg hfresh, if_neg (not_add_lt (by omega))]
    have hsum : (s.sumIn + x.2.amount).toNat = s.sumIn.toNat + x.2.amount.toNat :=
      toNat_add_of_not_lt (not_add_lt (by omega))
    obtain ⟨t, ht⟩ := scan_accepted (s := ⟨s.computed ++ [pqNullifier P inp], s.sumIn + x.2.amount⟩)
      (fun y hy => hown y (mem_cons_of_mem _ hy)) (by simpa using hnd) (by simp only [hsum]; omega)
    exact ⟨t, foldSteps_cons_ok.mpr ⟨_, hstep, ht⟩⟩

theorem addOutputs_accepted : ∀ {l : List TransactionOutput} {s : UInt64},
    s.toNat + (l.map fun o => o.amount.toNat).sum < 2 ^ 64 → ∃ t, foldSteps addOutput s l = .ok t
  | [], s, _ => ⟨s, rfl⟩
  | o :: l, s, hlt => by
    rw [map_cons, sum_cons] at hlt
    have hno : ¬ s + o.amount < s := not_add_lt (by omega)
    have hstep : addOutput s o = .ok (s + o.amount) := if_neg hno
    obtain ⟨t, ht⟩ := addOutputs_accepted (l := l) (s := s + o.amount)
      (by rw [toNat_add_of_not_lt hno]; omega)
    exact ⟨t, foldSteps_cons_ok.mpr ⟨_, hstep, ht⟩⟩

theorem InputsOk.accepted {P : Primitives} {tx : Transaction} {resolved : List PqResolvedInput} {minFee : Nat}
    {signing : PqSigningContext} {nfs : List Hash} {fee : UInt64} {u : UnsignedTx}
    (h : InputsOk P tx resolved minFee signing nfs fee u) (hlt : (resolved.map fun r => r.amount.toNat).sum < 2 ^ 64) :
    checkPqTransactionInputs P tx resolved minFee signing = .ok nfs := by
  have hstruct : forEach (structureInput (signing.groupedAuth && signing.useV2) tx.inputs)
      (List.range tx.inputs.length) = .ok () :=
    forEach_ok.mpr fun i hi => structureInput_ok.mpr (h.refs i (mem_range.mp hi))
  have hresolved : ((tx.inputs.zip resolved).map fun x => x.2.amount.toNat) = resolved.map fun r => r.amount.toNat := by
    rw [← Function.comp_def (fun r : PqResolvedInput => r.amount.toNat) Prod.snd, ← map_map,
      map_snd_zip (by rw [h.resolved_length])]
  have hbal := h.balance
  obtain ⟨scan, hscan⟩ := scan_accepted (P := P) (s := ⟨[], 0⟩) h.owned
    (by simpa [← h.nullifiers] using h.nodup) (by rw [hresolved]; simpa using hlt)
  obtain ⟨-, hcomp, hsum, -⟩ := scan_spec hscan
  obtain ⟨sumOut, hsumOut⟩ := addOutputs_accepted (l := tx.outputs) (s := 0)
    (by simp only [UInt64.toNat_zero]; omega)
  have hout := addOutput_spec hsumOut
  rw [hresolved] at hsum
  simp only [UInt64.toNat_zero, Nat.zero_add] at hsum hout
  have hle : ¬ scan.sumIn < sumOut := by
    rw [UInt64.lt_iff_toNat_lt]
    omega
  have hfee : scan.sumIn - sumOut = fee := by
    apply UInt64.toNat_inj.mp
    rw [UInt64.toNat_sub_of_le _ _ (UInt64.not_lt.mp hle)]
    omega
  have hfs : checkFeeAndSignatures P tx minFee signing scan.sumIn sumOut = .ok () := by
    unfold checkFeeAndSignatures
    rw [if_neg hle]
    dsimp only
    rw [hfee, if_neg (fun hno => absurd (h.floor hno.1) (Nat.not_le.mpr hno.2)), h.unsigned]
    exact forEach_ok.mpr h.signed
  unfold checkPqTransactionInputs
  rw [if_neg (by simp [h.resolved_length]), hstruct]
  dsimp only
  rw [if_neg (by simp [h.sigs]), hscan]
  dsimp only
  rw [hsumOut]
  dsimp only
  rw [hfs, hcomp, h.nullifiers]
  simp

/-- One signer for every input that carries its key. -/
theorem signers_length (inputs : List TransactionInput) : (signers inputs).length = pqSignatureCount inputs := by
  have hmap : (List.range inputs.length).map (fun i => ((inputs[i]?).map TransactionInput.carriesKey).getD false) =
      inputs.map TransactionInput.carriesKey := by
    apply ext_getElem
    · simp
    · intro i h1 h2
      have hi : i < inputs.length := by simpa using h2
      simp [hi]
  have hcount := congrArg (List.countP id) hmap
  rw [countP_map, countP_map] at hcount
  rw [signers, ← countP_eq_length_filter]
  simpa [pqSignatureCount, Function.comp_def] using hcount

end Discrete.L2
