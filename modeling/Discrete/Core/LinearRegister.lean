import Mathlib.Algebra.Group.Hom.Instances

/-!
# Linear registers

A register over a commutative group: each symbol read, the state goes through the
homomorphism `T` and the symbol is added (`feed`). A change of one symbol reaches the
final state through a power of `T` (`feed_change`), so a register whose `T` kills
nothing that can occur notices it (`feed_change_ne`).

`XorWord w` is the words of `w` bits with exclusive or as addition.
-/
namespace Discrete

section
variable {S : Type} [AddCommGroup S] (T : S →+ S)

def feed (c : S) (vs : List S) : S := vs.foldl (fun c v => T c + v) c

@[simp] theorem feed_nil (c : S) : feed T c [] = c := rfl

@[simp] theorem feed_cons (c v : S) (vs : List S) : feed T c (v :: vs) = feed T (T c + v) vs := rfl

theorem feed_append (c : S) (us vs : List S) : feed T c (us ++ vs) = feed T (feed T c us) vs := List.foldl_append

theorem feed_add : ∀ (vs : List S) (c d : S), feed T (c + d) vs = feed T c vs + T^[vs.length] d
  | [], _, _ => rfl
  | v :: vs, c, d => by
    rw [feed_cons, map_add, add_right_comm, feed_add vs, List.length_cons, Function.iterate_succ_apply, feed_cons]

/-- The part of the state and the part of the symbols. -/
theorem feed_eq (c : S) (vs : List S) : feed T c vs = feed T 0 vs + T^[vs.length] c := by
  rw [← feed_add, zero_add]

theorem feed_zeros (c : S) (n : Nat) : feed T c (List.replicate n 0) = T^[n] c := by
  induction n generalizing c with
  | zero => rfl
  | succ n ih => rw [List.replicate_succ, feed_cons, add_zero, ih, Function.iterate_succ_apply]

theorem feed_change (c v w : S) (us vs : List S) :
    feed T c (us ++ v :: vs) = feed T c (us ++ w :: vs) + T^[vs.length] (v - w) := by
  rw [feed_append, feed_append, feed_cons, feed_cons, ← feed_add, add_assoc, add_sub_cancel]

variable {T} {P : S → Prop}

theorem iterate_ne_zero (hP : ∀ x, P x → P (T x)) (hker : ∀ x, P x → T x = 0 → x = 0) :
    ∀ (n : Nat) {x : S}, P x → x ≠ 0 → T^[n] x ≠ 0
  | 0, _, _, hx => hx
  | n + 1, x, hPx, hx => by
    rw [Function.iterate_succ_apply]
    exact iterate_ne_zero hP hker n (hP x hPx) fun h => hx (hker x hPx h)

theorem feed_change_ne (hP : ∀ x, P x → P (T x)) (hker : ∀ x, P x → T x = 0 → x = 0) (c : S) {v w : S}
    (us vs : List S) (hPvw : P (v - w)) (hne : v ≠ w) : feed T c (us ++ v :: vs) ≠ feed T c (us ++ w :: vs) := by
  intro h
  rw [feed_change T c v w] at h
  exact iterate_ne_zero hP hker vs.length hPvw (sub_ne_zero.mpr hne) (add_eq_left.mp h)

end

@[ext] structure XorWord (w : Nat) where
  bits : BitVec w

namespace XorWord
variable {w : Nat}

instance : Add (XorWord w) := ⟨fun a b => ⟨a.bits ^^^ b.bits⟩⟩
instance : Zero (XorWord w) := ⟨⟨0#w⟩⟩
instance : Neg (XorWord w) := ⟨id⟩

instance : AddCommGroup (XorWord w) where
  add_assoc a b c := XorWord.ext (BitVec.xor_assoc a.bits b.bits c.bits)
  zero_add _ := XorWord.ext BitVec.zero_xor
  add_zero _ := XorWord.ext BitVec.xor_zero
  add_comm a b := XorWord.ext (BitVec.xor_comm a.bits b.bits)
  neg_add_cancel _ := XorWord.ext BitVec.xor_self
  nsmul := nsmulRec
  zsmul := zsmulRec

theorem bits_sub (a b : XorWord w) : (a - b).bits = a.bits ^^^ b.bits := by
  rw [sub_eq_add_neg]
  rfl

end XorWord
end Discrete
