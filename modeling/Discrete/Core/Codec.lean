import Mathlib.Data.List.Basic
import Mathlib.Tactic.Ring
import Mathlib.Tactic.Linarith

/-!
# Byte codecs

Readers over byte lists and the two laws a wire format needs:

* `Canonical r w`: whatever `r` accepts is what `w` writes for the value `r`
  returned, so no value has two accepted encodings;
* `Inverts P r w`: `r` reads back what `w` wrote, at any position in a stream,
  for every value in `P`.

A writer alone can be `Delimited`: its output, with anything behind it,
determines the value and where it ends. That is what makes a concatenation of
fields (a hash preimage, say) injective without a reader for it.
-/
namespace Discrete
open List

abbrev Bytes := List UInt8

/-- A byte array of fixed size (`std::array<uint8_t, n>`). -/
abbrev Blob (n : Nat) := { l : Bytes // l.length = n }

def zeroBlob (n : Nat) : Blob n := ⟨List.replicate n 0, length_replicate⟩

abbrev Reader (α : Type) := Bytes → Option (α × Bytes)

namespace Codec

variable {α β : Type}

def Canonical (r : Reader α) (w : α → Bytes) : Prop :=
  ∀ ⦃s a rest⦄, r s = some (a, rest) → s = w a ++ rest

def Inverts (P : α → Prop) (r : Reader α) (w : α → Bytes) : Prop :=
  ∀ ⦃a⦄, P a → ∀ rest, r (w a ++ rest) = some (a, rest)

def Delimited (P : α → Prop) (w : α → Bytes) : Prop :=
  ∀ ⦃a b⦄, P a → P b → ∀ ⦃r r'⦄, w a ++ r = w b ++ r' → a = b ∧ r = r'

variable {P : α → Prop} {r : Reader α} {w : α → Bytes}

theorem Inverts.delimited (h : Inverts P r w) : Delimited P w := by
  intro a b ha hb s s' e
  have e' := congrArg r e
  rw [h ha, h hb] at e'
  simpa using e'

theorem Delimited.inj (h : Delimited P w) {a b : α} (ha : P a) (hb : P b) (e : w a = w b) : a = b :=
  (h ha hb (congrArg (· ++ []) e)).1

/-- A writer of constant length delimits itself as soon as it is injective. -/
theorem Delimited.of_length (n : Nat) (hlen : ∀ a, P a → (w a).length = n) (hinj : ∀ a b, P a → P b → w a = w b → a = b)
    : Delimited P w := by
  intro a b ha hb r r' e
  have e' := append_inj e (by rw [hlen a ha, hlen b hb])
  exact ⟨hinj a b ha hb e'.1, e'.2⟩

/-- Two lists of the same length, written element by element. -/
theorem Delimited.flatMap (h : Delimited P w) :
    ∀ {as bs : List α}, as.length = bs.length → (∀ a ∈ as, P a) → (∀ b ∈ bs, P b) →
      ∀ {r r' : Bytes}, as.flatMap w ++ r = bs.flatMap w ++ r' → as = bs ∧ r = r'
  | [], [], _, _, _, r, r', e => ⟨rfl, by simpa using e⟩
  | a :: as, b :: bs, hl, ha, hb, r, r', e => by
    simp only [flatMap_cons, append_assoc] at e
    obtain ⟨hab, e'⟩ := h (ha a (by simp)) (hb b (by simp)) e
    obtain ⟨hs, hr⟩ := h.flatMap (by simpa using hl) (fun x hx => ha x (by simp [hx]))
      (fun x hx => hb x (by simp [hx])) e'
    exact ⟨by rw [hab, hs], hr⟩

/-! ## Fixed-size fields -/

/-- `n` bytes, no length in front. -/
def readExact (n : Nat) : Reader Bytes := fun s =>
  if n ≤ s.length then some (s.take n, s.drop n) else none

variable {s rest : Bytes}

theorem readExact_eq_some {n : Nat} {b : Bytes} : readExact n s = some (b, rest) ↔ s = b ++ rest ∧ b.length = n := by
  unfold readExact
  constructor
  · intro h
    split at h
    · rename_i hn
      simp only [Option.some.injEq, Prod.mk.injEq] at h
      obtain ⟨rfl, rfl⟩ := h
      exact ⟨(take_append_drop n s).symm, by simp [hn]⟩
    · cases h
  · rintro ⟨rfl, rfl⟩
    simp

def readBlob (n : Nat) : Reader (Blob n) := fun s =>
  if h : n ≤ s.length then some (⟨s.take n, by simp [h]⟩, s.drop n) else none

theorem readBlob_canonical (n : Nat) : Canonical (readBlob n) Subtype.val := by
  intro s b rest h
  unfold readBlob at h
  split at h
  · simp only [Option.some.injEq, Prod.mk.injEq] at h
    obtain ⟨rfl, rfl⟩ := h
    exact (take_append_drop n s).symm
  · cases h

theorem readBlob_inverts (n : Nat) : Inverts (fun _ => True) (readBlob n) Subtype.val := by
  rintro ⟨b, rfl⟩ - rest
  simp [readBlob]

theorem blob_delimited (n : Nat) : Delimited (fun _ : Blob n => True) Subtype.val :=
  (readBlob_inverts n).delimited

/-- One raw byte. -/
def readByte : Reader UInt8
  | [] => none
  | b :: s => some (b, s)

theorem readByte_eq_some {b : UInt8} : readByte s = some (b, rest) ↔ s = b :: rest := by
  cases s with
  | nil => simp [readByte]
  | cons c s => simp [readByte]

/-! ## Repetition -/

/-- `n` elements one after the other. -/
def readMany (r : Reader α) : Nat → Reader (List α)
  | 0, s => some ([], s)
  | n + 1, s => do
    let (a, s) ← r s
    let (as, s) ← readMany r n s
    pure (a :: as, s)

theorem readMany_succ_eq_some {n : Nat} {l : List α} :
    readMany r (n + 1) s = some (l, rest) ↔
      ∃ a mid as, r s = some (a, mid) ∧ readMany r n mid = some (as, rest) ∧ l = a :: as := by
  simp only [readMany, Option.bind_eq_bind, Option.bind_eq_some_iff, Prod.exists, Option.pure_def,
    Option.some.injEq, Prod.mk.injEq]
  constructor
  · rintro ⟨a, mid, h1, as, rest', h2, rfl, rfl⟩
    exact ⟨a, mid, as, h1, h2, rfl⟩
  · rintro ⟨a, mid, as, h1, h2, rfl⟩
    exact ⟨a, mid, h1, as, rest, h2, rfl, rfl⟩

example : readMany readByte 2 [1, 2, 3] = some ([1, 2], [3]) := by decide +kernel

theorem readMany_length : ∀ {n : Nat} {s rest : Bytes} {l : List α}, readMany r n s = some (l, rest) → l.length = n
  | 0, s, rest, l, h => by
    simp only [readMany, Option.some.injEq, Prod.mk.injEq] at h
    rw [← h.1]; rfl
  | n + 1, s, rest, l, h => by
    obtain ⟨a, mid, as, -, h2, rfl⟩ := readMany_succ_eq_some.mp h
    rw [length_cons, readMany_length h2]

theorem Canonical.readMany (h : Canonical r w) :
    ∀ {n : Nat}, Canonical (readMany r n) (fun l => l.flatMap w)
  | 0, s, l, rest, e => by
    simp only [Codec.readMany, Option.some.injEq, Prod.mk.injEq] at e
    obtain ⟨rfl, rfl⟩ := e
    rfl
  | n + 1, s, l, rest, e => by
    obtain ⟨a, mid, as, h1, h2, rfl⟩ := readMany_succ_eq_some.mp e
    rw [h h1, Canonical.readMany h h2]
    simp only [flatMap_cons, append_assoc]

theorem Inverts.readMany (h : Inverts P r w) :
    ∀ {l : List α}, (∀ a ∈ l, P a) → ∀ rest : Bytes, Codec.readMany r l.length (l.flatMap w ++ rest) = some (l, rest)
  | [], _, rest => rfl
  | a :: l, hl, rest => by
    rw [length_cons, readMany_succ_eq_some]
    refine ⟨a, l.flatMap w ++ rest, l, ?_, Inverts.readMany h (fun x hx => hl x (by simp [hx])) rest, rfl⟩
    rw [flatMap_cons, append_assoc]
    exact h (hl a (by simp)) _

/-- Every element a list reader returns came out of the element reader. -/
theorem readMany_forall {Q : α → Prop} (h : ∀ s a rest, r s = some (a, rest) → Q a) :
    ∀ {n : Nat} {s rest : Bytes} {l : List α}, Codec.readMany r n s = some (l, rest) → ∀ a ∈ l, Q a
  | 0, s, rest, l, e => by
    simp only [Codec.readMany, Option.some.injEq, Prod.mk.injEq] at e
    rw [← e.1]; simp
  | n + 1, s, rest, l, e => by
    obtain ⟨a, mid, as, h1, h2, rfl⟩ := readMany_succ_eq_some.mp e
    intro x hx
    rcases mem_cons.mp hx with rfl | hx
    · exact h _ _ _ h1
    · exact readMany_forall h h2 x hx

/-! ## Little-endian integers -/

/-- The `k` low bytes of `n`, least significant first. -/
def leBytes : Nat → Nat → Bytes
  | 0, _ => []
  | k + 1, n => UInt8.ofNat (n % 256) :: leBytes k (n / 256)

@[simp] theorem leBytes_length : ∀ k n, (leBytes k n).length = k
  | 0, _ => rfl
  | k + 1, n => by rw [leBytes, length_cons, leBytes_length]

theorem leBytes_inj : ∀ k {m n : Nat}, m < 256 ^ k → n < 256 ^ k → leBytes k m = leBytes k n → m = n
  | 0, m, n, hm, hn, _ => by simp at hm hn; omega
  | k + 1, m, n, hm, hn, h => by
    simp only [leBytes, List.cons.injEq] at h
    have h1 : m % 256 = n % 256 := by
      have := congrArg UInt8.toNat h.1
      simp only [UInt8.toNat_ofNat'] at this
      omega
    have h2 := leBytes_inj k (Nat.div_lt_of_lt_mul (by rwa [Nat.pow_succ, Nat.mul_comm] at hm))
      (Nat.div_lt_of_lt_mul (by rwa [Nat.pow_succ, Nat.mul_comm] at hn)) h.2
    omega

example : leBytes 3 258 = [2, 1, 0] := by decide +kernel

theorem leBytes_delimited (k : Nat) : Delimited (· < 256 ^ k) (leBytes k) :=
  Delimited.of_length k (fun n _ => leBytes_length k n) (fun _ _ => leBytes_inj k)

/-- The value of bytes in memory order. -/
def leValue : Bytes → Nat
  | [] => 0
  | b :: l => b.toNat + 256 * leValue l

theorem leBytes_leValue : ∀ l : Bytes, leBytes l.length (leValue l) = l
  | [] => rfl
  | b :: l => by
    have hb := b.toNat_lt
    rw [length_cons, leBytes, leValue, show (b.toNat + 256 * leValue l) / 256 = leValue l by omega,
      leBytes_leValue l, show (b.toNat + 256 * leValue l) % 256 = b.toNat by omega, UInt8.ofNat_toNat]

theorem leValue_lt : ∀ l : Bytes, leValue l < 256 ^ l.length
  | [] => by decide
  | b :: l => by
    have hb := b.toNat_lt
    have hl := leValue_lt l
    rw [length_cons, Nat.pow_succ, leValue]
    omega

theorem leValue_append : ∀ l r : Bytes, leValue (l ++ r) = leValue l + 256 ^ l.length * leValue r
  | [], r => by simp [leValue]
  | b :: l, r => by
    rw [cons_append, leValue, leValue, leValue_append l r, length_cons, Nat.pow_succ, Nat.mul_comm _ 256,
      Nat.mul_assoc, Nat.mul_add, Nat.add_assoc]

theorem leValue_leBytes : ∀ {k n : Nat}, n < 256 ^ k → leValue (leBytes k n) = n
  | 0, n, h => by
    rw [Nat.pow_zero] at h
    simp [leBytes, leValue, Nat.lt_one_iff.mp h]
  | k + 1, n, h => by
    have hdiv : n / 256 < 256 ^ k := by
      rw [Nat.div_lt_iff_lt_mul (by decide), ← Nat.pow_succ]
      exact h
    rw [leBytes, leValue, leValue_leBytes hdiv, UInt8.toNat_ofNat']
    omega

/-! ## Writers that may throw -/

/-- What reached the stream, and whether the serializer ran to its end. -/
structure Out where
  bytes : Bytes
  ok : Bool
  deriving DecidableEq

namespace Out

def put (b : Bytes) : Out := ⟨b, true⟩

def throw : Out := ⟨[], false⟩

/-- `b` runs only if `a` did not throw. -/
def andThen (a b : Out) : Out := if a.ok then ⟨a.bytes ++ b.bytes, b.ok⟩ else a

/-- One element after the other. -/
def each (w : α → Out) : List α → Out
  | [] => put []
  | a :: as => (w a).andThen (each w as)

@[simp] theorem put_bytes (b : Bytes) : (put b).bytes = b := rfl
@[simp] theorem put_ok (b : Bytes) : (put b).ok = true := rfl
@[simp] theorem throw_ok : throw.ok = false := rfl

@[simp] theorem andThen_ok (a b : Out) : (a.andThen b).ok = (a.ok && b.ok) := by
  unfold andThen
  cases h : a.ok <;> simp [h]

theorem andThen_bytes {a : Out} (b : Out) (h : a.ok = true) : (a.andThen b).bytes = a.bytes ++ b.bytes := by
  simp [andThen, h]

@[simp] theorem put_andThen_bytes (x : Bytes) (b : Out) :
    ((put x).andThen b).bytes = x ++ b.bytes := rfl

variable {w : α → Out}

theorem each_ok : ∀ {l : List α}, (each w l).ok = true ↔ ∀ a ∈ l, (w a).ok = true
  | [] => by simp [each]
  | a :: l => by simp [each, each_ok]

theorem each_bytes : ∀ {l : List α}, (each w l).ok = true → (each w l).bytes = l.flatMap fun a => (w a).bytes
  | [], _ => rfl
  | a :: l, h => by
    simp only [each, andThen_ok, Bool.and_eq_true] at h
    rw [each, andThen_bytes _ h.1, each_bytes h.2, flatMap_cons]

theorem length_andThen_le (a b : Out) : (a.andThen b).bytes.length ≤ a.bytes.length + b.bytes.length := by
  unfold andThen
  split
  · rw [length_append]
  · omega

/-- A bound for every element bounds the whole. -/
theorem length_each_le {f : α → Nat} : ∀ {l : List α}, (∀ a ∈ l, (w a).bytes.length ≤ f a) →
    (each w l).bytes.length ≤ (l.map f).sum
  | [], _ => by simp [each]
  | a :: l, h => by
    have ha := h a (by simp)
    have hl := length_each_le (fun x hx => h x (mem_cons_of_mem a hx))
    have hboth := length_andThen_le (w a) (each w l)
    rw [each, map_cons, sum_cons]
    omega

end Out

/-- `Canonical` for a writer that may throw: it does not throw on what `r` returns. -/
def CanonicalOut (r : Reader α) (w : α → Out) : Prop :=
  ∀ ⦃s a rest⦄, r s = some (a, rest) → (w a).ok = true ∧ s = (w a).bytes ++ rest

theorem CanonicalOut.readMany {r : Reader α} {w : α → Out} (h : CanonicalOut r w) {n : Nat} :
    CanonicalOut (Codec.readMany r n) (Out.each w) := by
  intro s l rest e
  have hok : (Out.each w l).ok = true := Out.each_ok.mpr (readMany_forall (fun _ _ _ e => (h e).1) e)
  refine ⟨hok, ?_⟩
  rw [Out.each_bytes hok]
  exact Canonical.readMany (fun _ _ _ e => (h e).2) e

end Codec
end Discrete
