import Discrete.L1Encoding.AccountNumber
import Discrete.L2Validation.Address
import Discrete.L6Wallet.PaymentProof

/-!
# Resolving a recipient (`PqRecipient.cpp`)

A payer is given a string: an address, which carries both keys, or an account number,
whose keys the node looks up on the chain. The number `H-I-A-T-C` also carries the route
`T`. The keys the node answers must have the fingerprint `A`.

The node is a parameter. Of its answer only the decoded keys matter; `none` stands for
hex that is not a key.

`resolvePqRecipient_address` and `resolvePqRecipient_index` are the two ways to a
recipient that a wallet's own strings take. No string is both: an account number starts
with a digit (`decodePqAddress_of_index`).
-/
namespace Discrete.L6
open L1 L2 Codec

structure Resolver where
  isTrustedResolver : Bool
  /-- `none`: an error, or nothing registered there. -/
  resolvePqAccount : AccountNumber → Option (Option KemPublicKey × Option DsaPublicKey)

inductive RecipientError where
  | untrustedResolver | notRegistered | badKeys | fingerprint | invalid
  deriving DecidableEq, Repr

/-- `badKeys` leaves the message empty. -/
def RecipientError.text : RecipientError → String
  | .untrustedResolver =>
    "Account numbers can only be resolved by a trusted daemon. Use the full address instead, connect to your own " ++
    "daemon, or use verified HTTPS and pass --trusted-daemon if you trust this one. Remote resolvers reached over " ++
    "plain HTTP, or with certificate verification disabled, are not trusted."
  | .notRegistered => "No account is registered at that account number."
  | .badKeys => ""
  | .fingerprint =>
    "The account number's fingerprint does not match the keys on chain. Check the number, and do not send to it."
  | .invalid => "Not a valid address or account number."

section
variable (P : Primitives) (node : Resolver) (testnet : Bool)

/-- mirrors PqRecipient.cpp:98-127 -/
def resolveAccount (acct : AccountNumber) (wantFingerprint : UInt32) (subaddrIndexT : UInt64) :
    Except RecipientError ResolvedRecipient :=
  if ¬ node.isTrustedResolver then .error .untrustedResolver
  else
    match node.resolvePqAccount acct with
    | none => .error .notRegistered
    | some (some viewPub, some spendPub) =>
      if pqAccountFingerprint P testnet spendPub viewPub ≠ wantFingerprint then .error .fingerprint
      else .ok ⟨viewPub, spendPub, subaddrIndexT⟩
    | some _ => .error .badKeys

/-- mirrors PqRecipient.cpp:62-131 -/
def resolvePqRecipient (s : Bytes) : Except RecipientError ResolvedRecipient :=
  match decodePqAddress P s testnet with
  | some addr => .ok ⟨addr.viewPub, addr.spendPub, 0⟩
  | none =>
    match AccountNumber.fromStringWithIndex s with
    | some (acct, t, fp) => resolveAccount P node testnet acct fp t.toUInt64
    | none =>
      match AccountNumber.fromString s with
      | some (acct, fp) => resolveAccount P node testnet acct fp 0
      | none => .error .invalid

end

section
variable {P : Primitives} {node : Resolver} {testnet : Bool}

theorem pqAccountFingerprint_lt (spendPub : DsaPublicKey) (viewPub : KemPublicKey) :
    (pqAccountFingerprint P testnet spendPub viewPub).toNat < 2 ^ 20 := by
  rw [pqAccountFingerprint, low20]
  exact Nat.mod_lt _ (by decide)

/-- An account number is not an address: the latter starts with a letter. -/
theorem decodePqAddress_of_index {s : Bytes} {r : AccountNumber × UInt32 × UInt32}
    (h : AccountNumber.fromStringWithIndex s = some r) : decodePqAddress P s testnet = none := by
  obtain ⟨c, rest, rfl, hc⟩ := fromStringWithIndex_digit h
  cases hd : decodePqAddress P (c :: rest) testnet with
  | none => rfl
  | some a =>
    obtain ⟨payload, hs, -⟩ := decodePqAddress_eq_some.mp hd
    have hdecode := decode_encodeSymbols (pqBech32Hrp_ne_nil testnet) payload
    obtain ⟨-, data, henc, -⟩ := decodeBech32m_eq_some.mp hdecode
    rw [extendedBech32mEncode, henc] at hs
    obtain ⟨x, hrp, hx, hletter⟩ : ∃ x hrp, pqBech32Hrp testnet = x :: hrp ∧ isDigit x = false := by
      cases testnet
      · exact ⟨_, _, rfl, by decide⟩
      · exact ⟨_, _, rfl, by decide⟩
    rw [hx, List.cons_append, List.cons.injEq] at hs
    rw [hs.1, hletter] at hc
    cases hc

theorem resolvePqRecipient_address {s : Bytes} {a : PqAddress} (h : decodePqAddress P s testnet = some a) :
    resolvePqRecipient P node testnet s = .ok ⟨a.viewPub, a.spendPub, 0⟩ := by
  rw [resolvePqRecipient, h]

theorem resolvePqRecipient_index {s : Bytes} {acct : AccountNumber} {t fp : UInt32} {r : ResolvedRecipient}
    (h : AccountNumber.fromStringWithIndex s = some (acct, t, fp)) :
    resolvePqRecipient P node testnet s = .ok r ↔
      node.isTrustedResolver = true ∧ node.resolvePqAccount acct = some (some r.viewPub, some r.spendPub) ∧
        pqAccountFingerprint P testnet r.spendPub r.viewPub = fp ∧ r.subaddrIndexT = t.toUInt64 := by
  rw [resolvePqRecipient, decodePqAddress_of_index h, h]
  dsimp only
  unfold resolveAccount
  split
  · rename_i htrust
    simp [htrust]
  · rename_i htrust
    have htrust : node.isTrustedResolver = true := not_not.mp htrust
    split
    · rename_i hnone
      simp [hnone]
    · rename_i viewPub spendPub hsome
      split
      · rename_i hne
        constructor
        · intro e
          cases e
        · rintro ⟨-, hnode, hfp, -⟩
          rw [hsome] at hnode
          cases hnode
          exact absurd hfp hne
      · rename_i heq
        constructor
        · intro e
          cases e
          exact ⟨htrust, hsome, not_not.mp heq, rfl⟩
        · rintro ⟨-, hnode, -, ht⟩
          rw [hsome] at hnode
          cases hnode
          rw [← ht]
    · rename_i answer hbad hsome
      constructor
      · intro e
        cases e
      · rintro ⟨-, hnode, -, -⟩
        exact absurd (Option.some.inj (hsome.symm.trans hnode)) (hbad _ _)

end
end Discrete.L6
