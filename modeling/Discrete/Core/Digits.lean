import Mathlib.Data.Nat.Digits.Lemmas

/-!
# Numerals and regrouping

`beValue b l` is the number that the digits `l` denote in base `b`, most significant
first. Digits below the base and their number determine a numeral (`beValue_inj`).

`Regroups n m inp out rest bits`: the digits `inp` of `n` bits each, read from the left,
are the digits `out` of `m` bits each and `bits` more bits with value `rest`. Reading
one more digit (`feed`) and writing one (`emit`) keep it; once fewer than `m` bits are
left over, `inp` determines everything else (`unique`).
-/
namespace Discrete
open List

def beValue (b : Nat) (l : List Nat) : Nat := Nat.ofDigits b l.reverse

@[simp] theorem beValue_nil (b : Nat) : beValue b [] = 0 := rfl

theorem beValue_snoc (b : Nat) (l : List Nat) (d : Nat) : beValue b (l ++ [d]) = beValue b l * b + d := by
  rw [beValue, reverse_append, reverse_singleton, singleton_append, Nat.ofDigits_cons, beValue]
  ring

theorem beValue_lt {b : Nat} (hb : 1 < b) {l : List Nat} (hl : ∀ d ∈ l, d < b) : beValue b l < b ^ l.length := by
  have := Nat.ofDigits_lt_base_pow_length (l := l.reverse) hb fun d hd => hl d (mem_reverse.mp hd)
  rwa [length_reverse] at this

theorem beValue_inj {b : Nat} (hb : 1 < b) {l l' : List Nat} (hlen : l.length = l'.length) (hl : ∀ d ∈ l, d < b)
    (hl' : ∀ d ∈ l', d < b) (h : beValue b l = beValue b l') : l = l' := by
  refine reverse_injective (Nat.ofDigits_inj_of_len_eq hb ?_ ?_ ?_ h)
  · rw [length_reverse, length_reverse, hlen]
  · exact fun d hd => hl d (mem_reverse.mp hd)
  · exact fun d hd => hl' d (mem_reverse.mp hd)

structure Regroups (n m : Nat) (inp out : List Nat) (rest bits : Nat) : Prop where
  length : inp.length * n = out.length * m + bits
  value : beValue (2 ^ n) inp = beValue (2 ^ m) out * 2 ^ bits + rest
  rest_lt : rest < 2 ^ bits
  digits : ∀ d ∈ out, d < 2 ^ m

namespace Regroups
variable {n m : Nat} {inp out : List Nat} {rest bits : Nat}

theorem nil (n m : Nat) : Regroups n m [] [] 0 0 := ⟨by simp, by simp, by simp, by simp⟩

theorem feed (h : Regroups n m inp out rest bits) {d : Nat} (hd : d < 2 ^ n) :
    Regroups n m (inp ++ [d]) out (rest * 2 ^ n + d) (bits + n) := by
  refine ⟨?_, ?_, ?_, h.digits⟩
  · rw [length_append, length_singleton, Nat.add_mul, h.length]
    ring
  · rw [beValue_snoc, h.value, Nat.pow_add]
    ring
  · have hstep : (rest + 1) * 2 ^ n ≤ 2 ^ bits * 2 ^ n := Nat.mul_le_mul_right _ h.rest_lt
    rw [Nat.pow_add]
    linarith

theorem emit (h : Regroups n m inp out rest bits) (hm : m ≤ bits) :
    Regroups n m inp (out ++ [rest / 2 ^ (bits - m)]) (rest % 2 ^ (bits - m)) (bits - m) := by
  have hsplit : 2 ^ bits = 2 ^ m * 2 ^ (bits - m) := by rw [← Nat.pow_add, Nat.add_sub_cancel' hm]
  refine ⟨?_, ?_, Nat.mod_lt _ (Nat.two_pow_pos _), ?_⟩
  · rw [length_append, length_singleton, Nat.add_mul, h.length]
    omega
  · have hdiv := Nat.div_add_mod rest (2 ^ (bits - m))
    rw [h.value, beValue_snoc, hsplit]
    nth_rewrite 1 [← hdiv]
    ring
  · intro d hd
    rcases mem_append.mp hd with hd | hd
    · exact h.digits d hd
    · rw [mem_singleton.mp hd, Nat.div_lt_iff_lt_mul (Nat.two_pow_pos _), ← hsplit]
      exact h.rest_lt

theorem unique {out' : List Nat} {rest' bits' : Nat} (hm : 0 < m) (h : Regroups n m inp out rest bits)
    (h' : Regroups n m inp out' rest' bits') (hb : bits < m) (hb' : bits' < m) :
    out = out' ∧ rest = rest' ∧ bits = bits' := by
  have hlen : out.length * m + bits = out'.length * m + bits' := h.length.symm.trans h'.length
  have hbits : bits = bits' := by
    have hmod := congrArg (· % m) hlen
    simpa [Nat.mod_eq_of_lt hb, Nat.mod_eq_of_lt hb'] using hmod
  subst hbits
  have hcount : out.length = out'.length := Nat.eq_of_mul_eq_mul_right hm (Nat.add_right_cancel hlen)
  have hvalue : beValue (2 ^ m) out * 2 ^ bits + rest = beValue (2 ^ m) out' * 2 ^ bits + rest' :=
    h.value.symm.trans h'.value
  have hrest : rest = rest' := by
    have hmod := congrArg (· % 2 ^ bits) hvalue
    simpa [Nat.mod_eq_of_lt h.rest_lt, Nat.mod_eq_of_lt h'.rest_lt] using hmod
  subst hrest
  have hsame := Nat.eq_of_mul_eq_mul_right (Nat.two_pow_pos bits) (Nat.add_right_cancel hvalue)
  exact ⟨beValue_inj (Nat.one_lt_two_pow (by omega)) hcount h.digits h'.digits hsame, rfl, rfl⟩

end Regroups
end Discrete
