import Discrete.L6Wallet.Draft

/-!
# The sweep policy (`PqSender.h`, `PqSender.cpp`)

A payment folds some of the wallet's smallest outputs into the inputs that cover it.
The header promises bounds on what is folded in; the scan keeps them with a budget it
spends from the back of the leftovers, and a second loop, over drafts, takes swept
inputs out again while the transaction is too large.

* `sweepLoop_swept` is the scan: the rules it starts with, less what has been taken.
* `shedding` is the second loop as it stands in the source, without a bound on its
  turns. Every selection it comes to keeps the covering inputs (`shedding_keeps`), it
  has no endless run (`shedding_wellFounded`), and `draftLoop` is its result
  (`draftLoop_shedding`).
* `sweep_policy` puts the two together for every result.
-/
namespace Discrete.L6
open List L1 L2 L3 Codec Greedy

section
variable (E : WalletEnv) (keys : PqWalletKeys) (req : PqSendRequest) (required : UInt64) {caps : InputCaps}
  (coins : Nat → Nat → OutputCoins) (coverCount : Nat)

/-- What one turn of the loop over drafts does: it throws, keeps the draft, or goes on
with one input less.
mirrors PqSender.cpp:314-341 -/
inductive ShedTurn (scheme : PqDepositScheme) (caps : InputCaps) where
  | threw (e : SendError)
  | kept (draft : PqTransactionBuildResult)
  | shed (s : Selection scheme caps)

def shedTurn (attempt : Nat) (s : Selection req.scheme caps) : ShedTurn req.scheme caps :=
  match buildDraft E keys req required s (coins attempt) with
  | .error e => .threw (.build e)
  | .ok draft =>
    if (toBinaryArray draft.tx).length ≤ maxPqTxSize then .kept draft
    else if s.inputs.length ≤ coverCount then .threw .sizeLimit
    else .shed s.drop

/-- The loop: the number of drafts made so far and the selection. -/
def shedding (start : Selection req.scheme caps) : Lts (Nat × Selection req.scheme caps) where
  Init x := x = (0, start)
  Step x y := shedTurn E keys req required coins coverCount x.1 x.2 = .shed y.2 ∧ y.1 = x.1 + 1

variable {E keys req required coins coverCount}

theorem shedTurn_shed {attempt : Nat} {s t : Selection req.scheme caps}
    (h : shedTurn E keys req required coins coverCount attempt s = .shed t) :
    coverCount < s.inputs.length ∧ t = s.drop := by
  unfold shedTurn at h
  split at h
  · cases h
  · split at h
    · cases h
    · split at h
      · cases h
      · rename_i hmore
        cases h
        exact ⟨not_le.mp hmore, rfl⟩

/-- Inputs go one by one from the back, and the first `coverCount` stay. -/
theorem shedding_keeps {start : Selection req.scheme caps} (hcount : coverCount ≤ start.inputs.length)
    {x : Nat × Selection req.scheme caps} (hx : (shedding E keys req required coins coverCount start).Reachable x) :
    x.2.inputs <+: start.inputs ∧ x.1 + x.2.inputs.length = start.inputs.length ∧ coverCount ≤ x.2.inputs.length := by
  refine Lts.Inductive.reachable (I := fun x => x.2.inputs <+: start.inputs ∧
    x.1 + x.2.inputs.length = start.inputs.length ∧ coverCount ≤ x.2.inputs.length) ⟨?_, ?_⟩ hx
  · rintro _ rfl
    exact ⟨prefix_refl _, Nat.zero_add _, hcount⟩
  · rintro ⟨n, s⟩ ⟨m, t⟩ ⟨htaken, hlen, hmore⟩ ⟨hturn, hm⟩
    obtain ⟨hlt, rfl⟩ := shedTurn_shed hturn
    simp only [Selection.drop, length_dropLast] at hm hlt hlen ⊢
    exact ⟨( dropLast_prefix _).trans htaken, by omega, by omega⟩

/-- No run of the loop is endless. -/
theorem shedding_wellFounded (start : Selection req.scheme caps) :
    WellFounded fun y x => (shedding E keys req required coins coverCount start).Step x y := by
  refine Subrelation.wf ?_ (InvImage.wf (fun x : Nat × Selection req.scheme caps => x.2.inputs.length) Nat.lt_wfRel.wf)
  rintro y x ⟨hturn, -⟩
  obtain ⟨hlt, hy⟩ := shedTurn_shed hturn
  show y.2.inputs.length < x.2.inputs.length
  rw [hy]
  simp only [Selection.drop, length_dropLast]
  omega

/-- The bounded loop of the model ends where the loop of the source does. -/
theorem draftLoop_shedding : ∀ {swept attempt : Nat} {s : Selection req.scheme caps},
    s.inputs.length = coverCount + swept →
      ∃ n t, Relation.ReflTransGen (shedding E keys req required coins coverCount s).Step (attempt, s) (n, t) ∧
        ((∃ draft, shedTurn E keys req required coins coverCount n t = .kept draft ∧
            draftLoop E keys req required coins swept attempt s = .ok (draft, t)) ∨
          ∃ e, shedTurn E keys req required coins coverCount n t = .threw e ∧
            draftLoop E keys req required coins swept attempt s = .error e) := by
  intro swept
  induction swept with
  | zero =>
    intro attempt s hlen
    refine ⟨attempt, s, .refl, ?_⟩
    unfold draftLoop shedTurn
    cases hbuild : buildDraft E keys req required s (coins attempt) with
    | error e => exact .inr ⟨_, rfl, rfl⟩
    | ok draft =>
      dsimp only
      split
      · exact .inl ⟨draft, rfl, rfl⟩
      · rw [if_pos (by omega)]
        exact .inr ⟨_, rfl, rfl⟩
  | succ swept ih =>
    intro attempt s hlen
    unfold draftLoop
    cases hbuild : buildDraft E keys req required s (coins attempt) with
    | error e =>
      exact ⟨attempt, s, .refl, .inr ⟨.build e, by simp [shedTurn, hbuild], rfl⟩⟩
    | ok draft =>
      dsimp only
      by_cases hsize : (toBinaryArray draft.tx).length ≤ maxPqTxSize
      · rw [if_pos hsize]
        exact ⟨attempt, s, .refl, .inl ⟨draft, by simp [shedTurn, hbuild, hsize], rfl⟩⟩
      · rw [if_neg hsize]
        have hturn : shedTurn E keys req required coins coverCount attempt s = .shed s.drop := by
          simp only [shedTurn, hbuild, if_neg hsize]
          rw [if_neg (by omega)]
        obtain ⟨n, t, hrun, hend⟩ := @ih (attempt + 1) s.drop (by
          simp only [Selection.drop, length_dropLast]
          omega)
        exact ⟨n, t, .head ⟨hturn, rfl⟩ hrun, hend⟩

end

/-! ## The policy -/

section
variable {E : WalletEnv} {keys : PqWalletKeys} {req : PqSendRequest}

/-- A first part of what was swept keeps the rules. -/
theorem Swept.of_prefix {scheme : PqDepositScheme} {caps : InputCaps} {limit budget remaining : Nat}
    {s : Selection scheme caps} {l extra part : List PqSpendInput} (h : Swept limit budget remaining s l extra)
    (hpart : part <+: extra) : Swept limit budget remaining s l part where
  drawn := hpart.sublist.trans h.drawn
  keys := fun si hsi => h.keys si (hpart.subset hsi)
  count := hpart.length_le.trans h.count
  value := (weight_le_of_sublist amountOf hpart.sublist).trans h.value
  kept := fun hne => by
    have hmore := h.kept (fun hnil => hne (prefix_nil.mp (hnil ▸ hpart)))
    have := hpart.length_le
    omega

/-- The inputs that cover the payment. -/
def coverInputs (E : WalletEnv) (req : PqSendRequest) (available : List PqSpendInput) (required : UInt64) :
    List PqSpendInput :=
  (cover req.scheme (capsFor (signingContext E req)) required (candidates E available req)).1.inputs

/-- The promises of the header, of the inputs `selected` of a payment: beyond the
covering ones they are under the same keys, few, worth at most a tenth of what could
be spent, and enough outputs are left. -/
structure SweepPolicy (E : WalletEnv) (req : PqSendRequest) (available : List PqSpendInput) (required : UInt64)
    (selected swept left : List PqSpendInput) : Prop where
  selected_eq : selected = coverInputs E req available required ++ swept
  accounted : (selected ++ left).Perm (filterBuckets available req.sourceBuckets)
  keys : ∀ si ∈ swept, ∃ c ∈ coverInputs E req available required, keyGroupOf req.scheme c = keyGroupOf req.scheme si
  count : swept.length ≤ sweepLimit (signingContext E req)
  value : 10 * weight amountOf swept ≤ weight amountOf (filterBuckets available req.sourceBuckets)
  kept : swept ≠ [] → pqSweepKeepOutputs ≤ left.length

theorem SweepPolicy.of_swept {available : List PqSpendInput} {required : UInt64} {swept : List PqSpendInput}
    (h : Swept (sweepLimit (signingContext E req)) ((totalAvail 0 (candidates E available req)).toNat / 10)
      (cover req.scheme (capsFor (signingContext E req)) required (candidates E available req)).2.length
      (cover req.scheme (capsFor (signingContext E req)) required (candidates E available req)).1
      (cover req.scheme (capsFor (signingContext E req)) required (candidates E available req)).2.reverse swept) :
    ∃ left, SweepPolicy E req available required (coverInputs E req available required ++ swept) swept left := by
  have hsort := E.order.perm (filterBuckets available req.sourceBuckets)
  have hcover := cover_perm req.scheme (capsFor (signingContext E req)) required (candidates E available req)
  obtain ⟨left, hleft⟩ := h.drawn.exists_perm_append
  have htotal := totalAvail_toNat 0 (candidates E available req)
  rw [UInt64.toNat_zero, Nat.zero_add, candidates, weight_perm amountOf hsort] at htotal
  refine ⟨left, rfl, ?_, ?_, h.count, ?_, fun hne => ?_⟩
  · rw [append_assoc]
    exact ((List.Perm.append_left _ (hleft.symm.trans (reverse_perm _))).trans hcover).trans hsort
  · intro si hsi
    have hkey := h.keys si hsi
    rw [Selection.keys_eq] at hkey
    exact mem_keySet.mp hkey
  · have hvalue := h.value
    rw [candidates] at hvalue
    omega
  · have hkept := h.kept hne
    have hlen := hleft.length_eq
    rw [length_append, length_reverse] at hlen
    omega

/-- Every payment with a sweep keeps the policy. While it is being built only swept
inputs are shed, the loop that sheds them has no endless run, and the selection it
ends with is the one in the result. -/
theorem sweep_policy (coins : Nat → Nat → OutputCoins) (available : List PqSpendInput)
    (hsweep : req.sweepSmallInputs = true) {sent fee : UInt64} (htotals : sendTotals req = .ok (sent, fee)) :
    (∀ r, buildPqSend E keys req coins available = .ok r →
      (∃ swept left, SweepPolicy E req available (sent + fee) r.selected swept left) ∧
      ∃ n s draft, (shedding E keys req (sent + fee) coins (coverInputs E req available (sent + fee)).length
          (selectionFor E req available (sent + fee))).Reachable (n, s) ∧
        shedTurn E keys req (sent + fee) coins (coverInputs E req available (sent + fee)).length n s = .kept draft ∧
        r.tx = draft.tx ∧ r.selected = s.inputs) ∧
    (∀ x, (shedding E keys req (sent + fee) coins (coverInputs E req available (sent + fee)).length
        (selectionFor E req available (sent + fee))).Reachable x →
      coverInputs E req available (sent + fee) <+: x.2.inputs ∧
        x.2.inputs <+: (selectionFor E req available (sent + fee)).inputs) ∧
    WellFounded fun y x => (shedding E keys req (sent + fee) coins
      (coverInputs E req available (sent + fee)).length (selectionFor E req available (sent + fee))).Step x y := by
  obtain ⟨extra, hextra, hselected⟩ := selectionFor_inputs E req available (sent + fee)
  rw [if_pos hsweep] at hextra
  have hcount : (selectionFor E req available (sent + fee)).inputs.length =
      (coverInputs E req available (sent + fee)).length + extra.length := by
    rw [hselected, length_append]
    rfl
  refine ⟨fun r hr => ?_, fun x hx => ?_, shedding_wellFounded _⟩
  · obtain ⟨htotals', -, draft, final, hdraft, htx, hfinal, -⟩ := buildPqSend_spec hr
    rw [htotals, Except.ok.injEq, Prod.mk.injEq] at htotals'
    obtain ⟨rfl, rfl⟩ := htotals'
    refine ⟨?_, ?_⟩
    · obtain ⟨⟨part, hpart⟩, htaken⟩ := draftLoop_cover hdraft
      rw [hselected, ← hpart] at htaken
      obtain ⟨left, hpolicy⟩ := SweepPolicy.of_swept
        (hextra.of_prefix ((prefix_append_right_inj _).mp htaken))
      refine ⟨part, left, ?_⟩
      rw [hfinal, ← hpart]
      exact hpolicy
    · have hswept : (selectionFor E req available (r.sent + r.fee)).inputs.length -
          (cover req.scheme (capsFor (signingContext E req)) (r.sent + r.fee)
            (candidates E available req)).1.inputs.length = extra.length :=
        Nat.sub_eq_of_eq_add (by rw [hcount, Nat.add_comm]; rfl)
      rw [hswept] at hdraft
      obtain ⟨n, t, hrun, ⟨draft', hkept, hloop⟩ | ⟨e, -, hloop⟩⟩ :=
        @draftLoop_shedding E keys req (r.sent + r.fee) _ coins _ extra.length 0 _ hcount
      · rw [hdraft, Except.ok.injEq, Prod.mk.injEq] at hloop
        obtain ⟨rfl, rfl⟩ := hloop
        exact ⟨n, final, draft, (Lts.Reachable.init rfl).trans hrun, hkept, htx, hfinal⟩
      · rw [hdraft] at hloop
        cases hloop
  · obtain ⟨htaken, -, hmore⟩ := shedding_keeps (by omega) hx
    refine ⟨prefix_of_prefix_length_le ?_ htaken hmore, htaken⟩
    rw [hselected]
    exact prefix_append _ _

end

/-- One large output and forty small ones. -/
def fragmented : List PqSpendInput :=
  toyInput 0 1000 pqPrimaryDeposit :: (List.range 40).map fun i => toyInput (i + 1) 1 pqPrimaryDeposit

/-- The large output pays, eight small ones are swept, thirty-two stay. -/
theorem sweep_policy_fragmented :
    ∃ r swept left, buildPqSend toyWalletEnv toyKeys (toyRequest .singleKeyIndex 0 69) toyCoins fragmented = .ok r ∧
      SweepPolicy toyWalletEnv (toyRequest .singleKeyIndex 0 69) fragmented (69 + 1) r.selected swept left ∧
      swept.length = 8 ∧ left.length = 32 := by
  have htotals : sendTotals (toyRequest .singleKeyIndex 0 69) = .ok (69, 1) := by decide +kernel
  have hcount : (selectionFor toyWalletEnv (toyRequest .singleKeyIndex 0 69) fragmented (69 + 1)).inputs.length = 9 ∧
      (coverInputs toyWalletEnv (toyRequest .singleKeyIndex 0 69) fragmented (69 + 1)).length = 1 := by decide +kernel
  obtain ⟨r, hr, hselected, -⟩ := buildPqSend_ok toyWallet_correct
    (show Scheduled toyWalletEnv.currency from Nat.le_refl _) toyKeys toyCoins fragmented htotals
    (by decide +kernel) (by decide +kernel) (by decide)
  obtain ⟨⟨swept, left, hpolicy⟩, -⟩ := (sweep_policy toyCoins fragmented rfl htotals).1 r hr
  have hswept : swept.length = 8 := by
    have := congrArg List.length hpolicy.selected_eq
    rw [hselected, hcount.1, length_append, hcount.2] at this
    omega
  have hleft : left.length = 32 := by
    have := hpolicy.accounted.length_eq
    rw [length_append, hselected, hcount.1] at this
    have hall : (filterBuckets fragmented (toyRequest .singleKeyIndex 0 69).sourceBuckets).length = 41 := rfl
    omega
  exact ⟨r, swept, left, hr, hpolicy, hswept, hleft⟩

end Discrete.L6
