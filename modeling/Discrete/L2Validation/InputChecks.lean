import Discrete.L2Validation.TransferEncoding

/-!
# What `checkPqTransactionInputs` establishes

One spec lemma per loop of the check (`scan_spec`, `addOutput_spec`), and
`InputsOk`, the whole of what acceptance means: the ledger proofs use these and
never unfold the check.
-/
namespace Discrete.L2
open List L1 Codec

/-- An addition that passes the `sum + x < sum` test did not wrap. -/
theorem toNat_add_of_not_lt {a b : UInt64} (h : ¬ a + b < a) : (a + b).toNat = a.toNat + b.toNat := by
  rw [UInt64.lt_iff_toNat_lt, UInt64.toNat_add] at h
  rw [UInt64.toNat_add]
  have := a.toNat_lt
  have := b.toNat_lt
  omega

/-- What one turn of the ownership loop has checked about an input. -/
structure OwnedInput (P : Primitives) (x : TransactionInput × PqResolvedInput) (inp : PqInput) : Prop where
  pq : x.1 = .pq inp
  fields : pqInputFieldsValid inp = true
  present : x.2.present = true
  spendable : x.2.isPqOutput = true
  commit : L2.spendCommit P (toDsaPub inp.authPub) (toRho inp.rhoReveal) = x.2.spendCommit

theorem scanInput_ok {P : Primitives} {s t : InputScan} {x : TransactionInput × PqResolvedInput}
    (h : scanInput P s x = .ok t) :
    ∃ inp, OwnedInput P x inp ∧ pqNullifier P inp ∉ s.computed ∧ t.computed = s.computed ++ [pqNullifier P inp] ∧
      t.sumIn.toNat = s.sumIn.toNat + x.2.amount.toNat := by
  unfold scanInput at h
  split at h; · cases h
  rename_i inp hx
  split at h; · cases h
  split at h; · cases h
  split at h; · cases h
  split at h; · cases h
  split at h; · cases h
  split at h; · cases h
  rename_i h1 h2 h3 h4 h5 h6
  simp only [Except.ok.injEq] at h
  subst h
  exact ⟨inp, ⟨hx, by simpa using h1, by simpa using h2, by simpa using h3, by simpa using h4⟩, h5, rfl,
    toNat_add_of_not_lt h6⟩

/-- The nullifier of a list entry; `none` for an input that is not a `PqInput`. -/
def entryNullifier (P : Primitives) (x : TransactionInput × PqResolvedInput) : Option Hash :=
  x.1.pq?.map (pqNullifier P)

theorem scan_spec {P : Primitives} {l : List (TransactionInput × PqResolvedInput)} {s t : InputScan}
    (h : foldSteps (scanInput P) s l = .ok t) :
    (∀ x ∈ l, ∃ inp, OwnedInput P x inp) ∧ t.computed = s.computed ++ l.filterMap (entryNullifier P) ∧
      t.sumIn.toNat = s.sumIn.toNat + (l.map fun x => x.2.amount.toNat).sum ∧
      (s.computed.Nodup → t.computed.Nodup) := by
  induction l generalizing s with
  | nil =>
    simp only [foldSteps_nil, Except.ok.injEq] at h
    subst h
    simp
  | cons x l ih =>
    obtain ⟨s', h1, h2⟩ := foldSteps_cons_ok.mp h
    obtain ⟨inp, hown, hfresh, hcomp, hsum⟩ := scanInput_ok h1
    obtain ⟨ih1, ih2, ih3, ih4⟩ := ih h2
    have hentry : entryNullifier P x = some (pqNullifier P inp) := by
      simp [entryNullifier, hown.pq]
    refine ⟨?_, ?_, ?_, ?_⟩
    · intro y hy
      rcases mem_cons.mp hy with rfl | hy
      · exact ⟨inp, hown⟩
      · exact ih1 y hy
    · rw [ih2, hcomp, filterMap_cons_some hentry, append_assoc, singleton_append]
    · rw [ih3, hsum, map_cons, sum_cons]
      omega
    · intro hnd
      apply ih4
      rw [hcomp]
      exact nodup_append.mpr ⟨hnd, by simp, by
        intro a ha b hb e
        rw [mem_singleton] at hb
        subst hb
        exact hfresh (e ▸ ha)⟩

theorem addOutput_spec {l : List TransactionOutput} {s t : UInt64} (h : foldSteps addOutput s l = .ok t) :
    t.toNat = s.toNat + (l.map fun o => o.amount.toNat).sum := by
  induction l generalizing s with
  | nil =>
    simp only [foldSteps_nil, Except.ok.injEq] at h
    subst h
    simp
  | cons o l ih =>
    obtain ⟨s', h1, h2⟩ := foldSteps_cons_ok.mp h
    unfold addOutput at h1
    split at h1; · cases h1
    rename_i hlt
    simp only [Except.ok.injEq] at h1
    subst h1
    rw [ih h2, toNat_add_of_not_lt hlt, map_cons, sum_cons]
    omega

/-- Everything `checkPqTransactionInputs` has established when it returns the
nullifiers `nfs`. `fee` is the fee the signatures commit to. -/
structure InputsOk (P : Primitives) (tx : Transaction) (resolved : List PqResolvedInput) (minFee : Nat)
    (signing : PqSigningContext) (nfs : List Hash) (fee : UInt64) (u : UnsignedTx) : Prop where
  resolved_length : resolved.length = tx.inputs.length
  refs : ∀ i < tx.inputs.length, ∃ inp, tx.inputs[i]? = some (.pq inp) ∧ RefOk tx.inputs i inp ∧
    (inp.keyRef = pqNoKeyRef ∨ (signing.groupedAuth && signing.useV2) = true)
  sigs : tx.pqSignatures.length = (signers tx.inputs).length
  owned : ∀ x ∈ tx.inputs.zip resolved, ∃ inp, OwnedInput P x inp
  nullifiers : nfs = (tx.inputs.zip resolved).filterMap (entryNullifier P)
  nodup : nfs.Nodup
  balance : (resolved.map fun r => r.amount.toNat).sum = (tx.outputs.map fun o => o.amount.toNat).sum + fee.toNat
  floor : minFee ≠ 0 → pqTxFeeFloor minFee tx.extra.length ≤ fee.toNat
  unsigned : pqUnsignedTx tx fee = some u
  signed : ∀ x ∈ (signers tx.inputs).zip ((signingDigests P signing u (signers tx.inputs)).zip tx.pqSignatures),
    verifySigner P tx x = .ok ()

theorem InputsOk.of_ok {P : Primitives} {tx : Transaction} {resolved : List PqResolvedInput} {minFee : Nat}
    {signing : PqSigningContext} {nfs : List Hash} (h : checkPqTransactionInputs P tx resolved minFee signing = .ok nfs)
    : ∃ fee u, InputsOk P tx resolved minFee signing nfs fee u := by
  unfold checkPqTransactionInputs at h
  split at h; · cases h
  rename_i hlen
  have hlen : resolved.length = tx.inputs.length := by simpa using hlen
  split at h; · cases h
  rename_i hstruct
  split at h; · cases h
  rename_i hsig
  split at h; · cases h
  rename_i scan hscan
  split at h; · cases h
  rename_i sumOut hsumOut
  split at h; · cases h
  rename_i hfs
  simp only [Except.ok.injEq] at h
  subst h
  obtain ⟨hown, hcomp, hsum, hnd⟩ := scan_spec hscan
  have hout := addOutput_spec hsumOut
  have hresolved : ((tx.inputs.zip resolved).map fun x => x.2.amount.toNat) = resolved.map fun r => r.amount.toNat := by
    rw [← Function.comp_def (fun r : PqResolvedInput => r.amount.toNat) Prod.snd, ← map_map, map_snd_zip (by omega)]
  unfold checkFeeAndSignatures at hfs
  split at hfs; · cases hfs
  rename_i hle
  dsimp only at hfs
  split at hfs; · cases hfs
  rename_i hfloor
  split at hfs; · cases hfs
  rename_i u hu
  refine ⟨scan.sumIn - sumOut, u, hlen, ?_, by simpa using hsig, hown, by simpa using hcomp,
    hnd (by simp), ?_, ?_, hu, forEach_ok.mp hfs⟩
  · intro i hi
    exact structureInput_ok.mp (forEach_ok.mp hstruct i (mem_range.mpr hi))
  · rw [UInt64.lt_iff_toNat_lt] at hle
    rw [← hresolved, UInt64.toNat_sub_of_le _ _ (UInt64.le_iff_toNat_le.mpr (by omega))]
    simp only [UInt64.toNat_zero, Nat.zero_add] at hsum hout
    omega
  · intro hmin
    by_contra hlt
    exact hfloor ⟨hmin, by omega⟩

/-- The ownership facts about the input in position `i`. -/
theorem InputsOk.at {P : Primitives} {tx : Transaction} {resolved : List PqResolvedInput} {minFee : Nat}
    {signing : PqSigningContext} {nfs : List Hash} {fee : UInt64} {u : UnsignedTx}
    (h : InputsOk P tx resolved minFee signing nfs fee u) {i : Nat} {inp : PqInput}
    (hi : tx.inputs[i]? = some (.pq inp)) : ∃ r, resolved[i]? = some r ∧ OwnedInput P (.pq inp, r) inp := by
  have hlt : i < resolved.length := by
    rw [h.resolved_length]
    exact (List.getElem?_eq_some_iff.mp hi).1
  have hget : (tx.inputs.zip resolved)[i]? = some (.pq inp, resolved[i]) := by
    rw [getElem?_zip_eq_some]
    exact ⟨hi, getElem?_eq_getElem hlt⟩
  obtain ⟨inp', hown⟩ := h.owned _ (mem_of_getElem? hget)
  obtain rfl : inp' = inp := by
    have := hown.pq
    simp only [TransactionInput.pq.injEq] at this
    exact this.symm
  exact ⟨resolved[i], getElem?_eq_getElem hlt, hown⟩

end Discrete.L2
