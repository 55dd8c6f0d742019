import Mathlib.Algebra.Ring.Nat
import Mathlib.Data.List.Chain

/-!
# Locators: descending lists whose gaps at most double

`Descends g l` says of a list of heights that it descends to zero, that its first gap
is at most `g`, and that each later gap is at most twice the one before.

* `descends_doublings`: counting down from a tip by powers of two, then going on with any
  list that starts with a gap of one, is such a list.
* `Descends.find_le`: a searcher who takes the first height at or below `f` goes back at
  most twice as far from the tip as `f` is.
-/
namespace Discrete
open List

/-- `for (i = start; i <= n; i *= 2)`. `n` turns are enough, since `i` doubles. -/
def doublingFrom : Nat → Nat → Nat → List Nat
  | 0, _, _ => []
  | fuel + 1, i, n => if i ≤ n then i :: doublingFrom fuel (i * 2) n else []

def doublings (n : Nat) : List Nat := doublingFrom n 1 n

inductive Descends : Nat → List Nat → Prop where
  | zero (g : Nat) : Descends g [0]
  | step {g a b : Nat} {l : List Nat} : b < a → a - b ≤ g → Descends (2 * (a - b)) (b :: l) → Descends g (a :: b :: l)

theorem Descends.mono {g g' : Nat} {l : List Nat} (h : Descends g l) (hle : g ≤ g') : Descends g' l := by
  cases h with
  | zero => exact .zero g'
  | step hlt hgap h => exact .step hlt (hgap.trans hle) h

theorem Descends.getLast? {g : Nat} {l : List Nat} (h : Descends g l) : l.getLast? = some 0 := by
  induction h with
  | zero => rfl
  | step _ _ _ ih => rw [getLast?_cons_cons, ih]

theorem Descends.pairwise {g : Nat} {l : List Nat} (h : Descends g l) : l.Pairwise (· > ·) := by
  rw [← isChain_iff_pairwise]
  induction h with
  | zero => exact .singleton 0
  | step hlt _ _ ih => exact .cons_cons hlt ih

/-- Each gap is at most twice the one before. -/
theorem Descends.gaps {g : Nat} {l : List Nat} (h : Descends g l) : ∀ {i a b c : Nat},
    l[i]? = some a → l[i + 1]? = some b → l[i + 2]? = some c → b - c ≤ 2 * (a - b) := by
  induction h with
  | zero =>
    intro i a b c _ hb _
    simp at hb
  | @step g a' b' l' hlt hgap hrest ih =>
    intro i a b c ha hb hc
    cases i with
    | zero =>
      simp only [Nat.zero_add, getElem?_cons_zero, getElem?_cons_succ, Option.some.injEq] at ha hb hc
      subst ha hb
      cases hrest with
      | zero => simp at hc
      | step _ hgap' _ =>
        rw [getElem?_cons_zero, Option.some.injEq] at hc
        exact hc ▸ hgap'
    | succ i => exact ih ha hb hc

/-- Counting down from `a + n` by `1, 2, 4, …` while the count is above `a`, and then going
on from `a`. -/
theorem descends_doublingFrom {a n : Nat} {l : List Nat} (h : Descends 1 (a :: l)) :
    ∀ (fuel i : Nat), 0 < i → i ≤ n → n < i * 2 ^ fuel →
      Descends i ((doublingFrom fuel i n).map (a + n + 1 - ·) ++ a :: l)
  | 0, i, _, hin, hfuel => by
    rw [Nat.pow_zero, Nat.mul_one] at hfuel
    omega
  | fuel + 1, i, hpos, hin, hfuel => by
    have hfuel' : n < i * 2 * 2 ^ fuel := by
      rwa [Nat.mul_assoc, ← Nat.pow_succ']
    rw [doublingFrom, if_pos hin, map_cons, cons_append]
    by_cases hnext : i * 2 ≤ n
    · have ih := descends_doublingFrom h fuel (i * 2) (by omega) hnext hfuel'
      cases fuel with
      | zero =>
        rw [Nat.pow_zero, Nat.mul_one] at hfuel'
        omega
      | succ fuel =>
        rw [doublingFrom, if_pos hnext, map_cons, cons_append] at ih ⊢
        exact .step (by omega) (by omega) (ih.mono (by omega))
    · have hend : doublingFrom fuel (i * 2) n = [] := by
        cases fuel with
        | zero => rfl
        | succ fuel => rw [doublingFrom, if_neg hnext]
      rw [hend, map_nil, nil_append]
      exact .step (by omega) (by omega) (h.mono (by omega))

theorem descends_doublings {a : Nat} {l : List Nat} (h : Descends 1 (a :: l)) (n : Nat) :
    Descends 1 ((doublings n).map (a + n + 1 - ·) ++ a :: l) := by
  rcases Nat.eq_zero_or_pos n with rfl | hn
  · exact h
  · exact descends_doublingFrom h n 1 (by omega) hn (by rw [Nat.one_mul]; exact Nat.lt_two_pow_self)

theorem head?_doublings (a n : Nat) (l : List Nat) :
    ((doublings n).map (a + n + 1 - ·) ++ a :: l).head? = some (a + n) := by
  cases n with
  | zero => rfl
  | succ n => simp [doublings, doublingFrom]

/-- The loop with one more admitted value has one more turn exactly at a power of two. -/
theorem doublingFrom_succ {n : Nat} : ∀ (fuel i : Nat), 0 < i → n < i * 2 ^ fuel →
    doublingFrom (fuel + 1) i (n + 1) = doublingFrom fuel i n ∨
      doublingFrom (fuel + 1) i (n + 1) = doublingFrom fuel i n ++ [n + 1]
  | 0, i, _, hfuel => by
    rw [Nat.pow_zero, Nat.mul_one] at hfuel
    rcases Nat.eq_or_lt_of_le (Nat.succ_le_of_lt hfuel) with rfl | hgt
    · exact .inr (if_pos le_rfl)
    · exact .inl (if_neg (by omega))
  | fuel + 1, i, hpos, hfuel => by
    have hfuel' : n < i * 2 * 2 ^ fuel := by
      rwa [Nat.mul_assoc, ← Nat.pow_succ']
    have hleft : doublingFrom (fuel + 1 + 1) i (n + 1) =
        if i ≤ n + 1 then i :: doublingFrom (fuel + 1) (i * 2) (n + 1) else [] := rfl
    have hright : doublingFrom (fuel + 1) i n = if i ≤ n then i :: doublingFrom fuel (i * 2) n else [] := rfl
    rw [hleft, hright]
    rcases Nat.lt_trichotomy i (n + 1) with hlt | rfl | hgt
    · rw [if_pos (by omega), if_pos (by omega)]
      rcases doublingFrom_succ fuel (i * 2) (by omega) hfuel' with ih | ih
      · exact .inl (by rw [ih])
      · exact .inr (by rw [ih, cons_append])
    · rw [if_pos le_rfl, if_neg (by omega), doublingFrom, if_neg (by omega)]
      exact .inr rfl
    · rw [if_neg (by omega), if_neg (by omega)]
      exact .inl rfl

theorem doublings_succ (n : Nat) : doublings (n + 1) = doublings n ∨ doublings (n + 1) = doublings n ++ [n + 1] := by
  refine doublingFrom_succ n 1 (by omega) ?_
  rw [Nat.one_mul]
  exact Nat.lt_two_pow_self

theorem doublings_mem {n i : Nat} (h : i ∈ doublings n) : 0 < i ∧ i ≤ n := by
  have hloop : ∀ (fuel j : Nat), 0 < j → i ∈ doublingFrom fuel j n → 0 < i ∧ i ≤ n := by
    intro fuel
    induction fuel with
    | zero => intro j _ h; cases h
    | succ fuel ih =>
      intro j hj h
      rw [doublingFrom] at h
      split at h
      · rename_i hle
        rcases mem_cons.mp h with rfl | h
        · exact ⟨hj, hle⟩
        · exact ih (j * 2) (by omega) h
      · cases h
  exact hloop n 1 (by omega) h

/-- The first height at or below `f`: it is the highest of those, and its distance from the
tip is at most twice that of `f`. The bound on the next gap carries the induction: the
gaps so far sum to the distance from the tip, and a sum of gaps that at most double is
at least the next one less one. -/
theorem Descends.find_le {tip f : Nat} {l : List Nat} : ∀ {g a : Nat}, Descends g (a :: l) →
    a ≤ tip → g ≤ tip - a + 1 → (a ≤ f → tip - a ≤ 2 * (tip - f)) →
    ∃ h, (a :: l).find? (· ≤ f) = some h ∧ tip - h ≤ 2 * (tip - f) := by
  induction l with
  | nil =>
    intro g a h _ _ hnear
    cases h
    exact ⟨0, by simp, hnear (Nat.zero_le f)⟩
  | cons b l ih =>
    intro g a h ha hg hnear
    by_cases haf : a ≤ f
    · exact ⟨a, by simp [haf], hnear haf⟩
    · cases h with
      | step hlt hgap hrest =>
        obtain ⟨h, hfind, hbound⟩ := ih hrest (by omega) (by omega) (by omega)
        exact ⟨h, by rw [find?_cons_of_neg (by simpa using haf), hfind], hbound⟩

/-- In a descending list the first hit is the highest. -/
theorem find?_le_highest {f h : Nat} : ∀ {l : List Nat}, l.Pairwise (· > ·) →
    l.find? (· ≤ f) = some h → h ∈ l ∧ h ≤ f ∧ ∀ k ∈ l, k ≤ f → k ≤ h
  | [], _, hfind => by cases hfind
  | a :: l, hpair, hfind => by
    rw [pairwise_cons] at hpair
    by_cases haf : a ≤ f
    · rw [find?_cons_of_pos (by simpa using haf), Option.some.injEq] at hfind
      subst hfind
      refine ⟨by simp, haf, ?_⟩
      intro k hk _
      rcases mem_cons.mp hk with rfl | hk
      · exact le_rfl
      · exact (hpair.1 k hk).le
    · rw [find?_cons_of_neg (by simpa using haf)] at hfind
      obtain ⟨hmem, hle, hmax⟩ := find?_le_highest hpair.2 hfind
      refine ⟨mem_cons_of_mem _ hmem, hle, ?_⟩
      intro k hk hkf
      rcases mem_cons.mp hk with rfl | hk
      · exact absurd hkf haf
      · exact hmax k hk hkf

/-- A search that knows exactly the heights up to `f`. -/
theorem findSome?_eq_find? {f : Nat} {g : Nat → Option Nat} : ∀ {l : List Nat},
    (∀ k ∈ l, g k = if k ≤ f then some k else none) → l.findSome? g = l.find? (· ≤ f)
  | [], _ => rfl
  | a :: l, h => by
    have ih := findSome?_eq_find? fun k hk => h k (mem_cons_of_mem _ hk)
    have ha := h a (mem_cons_self ..)
    by_cases haf : a ≤ f
    · rw [if_pos haf] at ha
      rw [findSome?_cons, ha, find?_cons_of_pos (by simpa using haf)]
    · rw [if_neg haf] at ha
      rw [findSome?_cons, ha, find?_cons_of_neg (by simpa using haf), ih]

end Discrete
