import Discrete.Core.Codec
import Discrete.Core.Digits

/-!
# Text as bytes

`ascii` is the bytes of a literal; `rfind` is `std::string::rfind` for one character,
specified by what is around the hit (`rfind_eq_some`). Splitting at a character loses
nothing but the character (`flatten_splitOn`). `decimalDigits` are the digits that
`std::to_string` prints.
-/
namespace Discrete
open List

def chr (c : Char) : UInt8 := UInt8.ofNat c.toNat

def ascii (s : String) : Bytes := s.toList.map chr

/-- The position of the last `c`. -/
def rfind (c : UInt8) : Bytes → Option Nat
  | [] => none
  | b :: s =>
    match rfind c s with
    | some k => some (k + 1)
    | none => if b = c then some 0 else none

theorem rfind_eq_none {c : UInt8} : ∀ {s : Bytes}, rfind c s = none ↔ c ∉ s
  | [] => by simp [rfind]
  | b :: s => by
    have ih := rfind_eq_none (c := c) (s := s)
    rw [rfind]
    cases hs : rfind c s with
    | some k =>
      rw [hs] at ih
      simp only [reduceCtorEq, false_iff, not_not] at ih
      simp [ih]
    | none =>
      have hnot := ih.mp hs
      by_cases e : b = c
      · simp [e]
      · simp [e, hnot, Ne.symm e]

theorem rfind_append {c : UInt8} (left : Bytes) {right : Bytes} (h : c ∉ right) :
    rfind c (left ++ c :: right) = some left.length := by
  induction left with
  | nil => rw [nil_append, rfind, rfind_eq_none.mpr h, length_nil, if_pos rfl]
  | cons b left ih => rw [cons_append, rfind, ih, length_cons]

theorem rfind_eq_some {c : UInt8} : ∀ {s : Bytes} {k : Nat},
    rfind c s = some k → ∃ left right, s = left ++ c :: right ∧ c ∉ right ∧ left.length = k
  | [], _, h => by cases h
  | b :: s, k, h => by
    rw [rfind] at h
    cases hs : rfind c s with
    | some j =>
      rw [hs] at h
      obtain ⟨left, right, rfl, hnot, rfl⟩ := rfind_eq_some hs
      exact ⟨b :: left, right, rfl, hnot, Option.some.inj h⟩
    | none =>
      rw [hs] at h
      dsimp only at h
      split at h
      · rename_i e
        exact ⟨[], s, by rw [e]; rfl, rfind_eq_none.mp hs, Option.some.inj h⟩
      · cases h

section
variable {α : Type} [DecidableEq α] {c : α}

theorem splitOn_append {field : List α} (h : c ∉ field) (rest : List α) :
    (field ++ c :: rest).splitOn c = field :: rest.splitOn c := by
  refine splitOnP_append_cons_of_forall_mem (fun x hx => ?_) c (by simp) rest
  simpa using fun e : x = c => h (e ▸ hx)

theorem splitOn_of_not_mem {field : List α} (h : c ∉ field) : field.splitOn c = [field] := by
  refine splitOnP_eq_singleton fun x hx => ?_
  simpa using fun e : x = c => h (e ▸ hx)

theorem flatten_splitOn (c : α) (s : List α) : (s.splitOn c).flatten = s.filter fun x => decide (x ≠ c) := by
  induction s with
  | nil => rfl
  | cons x s ih =>
    rw [List.splitOn] at ih ⊢
    rw [splitOnP_cons_eq_if_modifyHead]
    by_cases e : x = c
    · simp only [e, beq_self_eq_true, if_true, flatten_cons, nil_append, ih]
      simp
    · have hne : (x == c) = false := by simpa using e
      rw [if_neg (by simp [hne])]
      cases hsplit : List.splitOnP (fun y => y == c) s with
      | nil => exact absurd hsplit (splitOnP_ne_nil _ _)
      | cons f fs =>
        rw [hsplit, flatten_cons] at ih
        simpa [e] using ih

end

/-- `fuel + 1` bounds the number of digits. -/
def decimalDigits : (fuel n : Nat) → List Nat
  | 0, n => [n % 10]
  | fuel + 1, n => if n < 10 then [n] else decimalDigits fuel (n / 10) ++ [n % 10]

theorem beValue_decimalDigits : ∀ {fuel n : Nat}, n < 10 ^ (fuel + 1) → beValue 10 (decimalDigits fuel n) = n
  | 0, n, h => by
    have hsmall : n % 10 = n := Nat.mod_eq_of_lt (by simpa using h)
    rw [decimalDigits, hsmall, ← nil_append [n], beValue_snoc, beValue_nil]
    omega
  | fuel + 1, n, h => by
    rw [decimalDigits]
    split
    · rw [← nil_append [n], beValue_snoc, beValue_nil]
      omega
    · rw [beValue_snoc, beValue_decimalDigits (by rw [Nat.pow_succ] at h; omega)]
      omega

theorem decimalDigits_lt : ∀ {fuel n : Nat}, ∀ d ∈ decimalDigits fuel n, d < 10
  | 0, n => by
    intro d hd
    rw [mem_singleton.mp hd]
    exact Nat.mod_lt _ (by decide)
  | fuel + 1, n => by
    rw [decimalDigits]
    intro d hd
    split at hd
    · rename_i hlt
      rw [mem_singleton.mp hd]
      exact hlt
    · rcases mem_append.mp hd with hd | hd
      · exact decimalDigits_lt d hd
      · rw [mem_singleton.mp hd]
        exact Nat.mod_lt _ (by decide)

theorem decimalDigits_ne_nil : ∀ {fuel n : Nat}, decimalDigits fuel n ≠ []
  | 0, n => by simp [decimalDigits]
  | fuel + 1, n => by
    rw [decimalDigits]
    split <;> simp

end Discrete
