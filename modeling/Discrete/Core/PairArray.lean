import Discrete.Core.PairTree

/-!
# Hash trees in an array

`PairTree` builds a tree on lists. Programs keep one array and write each level over the one
below: the pair at `2 * j` goes to `j`. `pairLoop` is that loop with every read and write
checked against the bounds of its array, and `pairLoop_eq` says what it leaves behind.

The values beside the way from the first leaf to the root are its branch (`siblings`). Folding
them onto the leaf gives the root (`siblings_root`), for every first level that has the
length of a power of two, so also for the two that a number of leaves can have
(`iterate_level`).
-/
namespace Discrete.PairTree
open List

variable {α : Type} (node : α → α → α)

/-! ## Levels -/

theorem pairUp_append : ∀ {n : Nat} {l : List α} (r : List α), l.length = 2 * n →
    pairUp node (l ++ r) = pairUp node l ++ pairUp node r
  | 0, [], _, _ => rfl
  | n + 1, a :: b :: l, r, h => by
    simp only [length_cons] at h
    rw [cons_append, cons_append, pairUp, pairUp, pairUp_append r (n := n) (by omega), cons_append]
  | n + 1, [_], _, h => by
    simp only [length_singleton] at h
    omega
  | 0, _ :: _, _, h => by simp at h
  | n + 1, [], _, h => by simp at h

theorem iterate_pairUp_length : ∀ {d k : Nat} {l : List α}, l.length = 2 ^ (d + k) →
    ((pairUp node)^[d] l).length = 2 ^ k
  | 0, k, l, h => by simpa using h
  | d + 1, k, l, h => by
    rw [Function.iterate_succ_apply]
    exact iterate_pairUp_length (pairUp_length node (by rw [h, Nat.add_right_comm, Nat.pow_succ, Nat.mul_comm]))

/-- `shrink` stops one level below the root. -/
theorem shrink_eq : ∀ {k fuel : Nat} {l : List α}, l.length = 2 ^ (k + 1) → k ≤ fuel →
    shrink node fuel l = (pairUp node)^[k] l
  | 0, 0, _, _, _ => rfl
  | 0, fuel + 1, l, h, _ => by
    rw [shrink, if_neg (by omega)]
    rfl
  | k + 1, fuel + 1, l, h, hk => by
    have hpow : 2 ≤ 2 ^ (k + 1) := Nat.le_self_pow (by omega) 2
    have hl : l.length = 2 * 2 ^ (k + 1) := by rw [h, Nat.pow_succ, Nat.mul_comm]
    rw [shrink, if_pos (by omega), shrink_eq (pairUp_length node hl) (by omega), Function.iterate_succ_apply]

theorem root_of_fits {k : Nat} {l : List α} {r : α} (hlen : 2 < l.length) (hle : 2 ^ (k + 1) ≤ l.length)
    (hge : l.length ≤ 2 * 2 ^ (k + 1)) (h : root node (2 ^ (k + 1)) l = some r) :
    (pairUp node)^[k + 1] (level node (2 * 2 ^ (k + 1) - l.length) l) = [r] := by
  have hk : k ≤ 2 ^ (k + 1) := (Nat.lt_two_pow_self (n := k)).le.trans (Nat.pow_le_pow_right (by decide) (by omega))
  have hshrink := shrink_eq node (level_length node hle hge) hk
  match l, hlen, h with
  | a :: b :: c :: l, _, h =>
    rw [root] at h
    · rw [hshrink] at h
      split at h
      · rename_i x y hxy
        rw [Function.iterate_succ_apply', hxy]
        simpa [pairUp] using h
      · cases h
    all_goals simp

/-- As many leaves as a power of two: they are a level, and so are their pairs. -/
theorem iterate_level_succ {d : Nat} {l : List α} (h : l.length = 2 * 2 ^ d) :
    (pairUp node)^[d + 1] (level node (2 * 2 ^ (d + 1) - l.length) l) =
      (pairUp node)^[d] (level node (2 * 2 ^ d - l.length) l) := by
  have hall : 2 * 2 ^ (d + 1) - l.length = l.length := by
    rw [h, Nat.pow_succ]
    omega
  rw [hall, h, Nat.sub_self, ← h, Function.iterate_succ_apply]
  simp [level, pairUp]

/-- The root from any first level with as many values as a power of two, be it the leaves
themselves or the level above them. -/
theorem iterate_level {power d : Nat} {l : List α} {r : α} (hpower : 2 < l.length → Fits power l.length)
    (hle : 2 ^ d ≤ l.length) (hge : l.length ≤ 2 * 2 ^ d) (h : root node power l = some r) :
    (pairUp node)^[d] (level node (2 * 2 ^ d - l.length) l) = [r] := by
  rcases Nat.lt_or_ge 2 l.length with hlen | hlen
  · obtain ⟨k, rfl, hle', hge'⟩ := hpower hlen
    have hroot := root_of_fits node hlen hle' hge' h
    -- the two levels differ only when the number of leaves is a power of two
    rcases Nat.lt_trichotomy d (k + 1) with hlt | rfl | hgt
    · have hpow : 2 ^ (d + 1) ≤ 2 ^ (k + 1) := Nat.pow_le_pow_right (by decide) hlt
      have hdk : d + 1 = k + 1 := by
        apply (Nat.pow_right_inj (a := 2) (by decide)).mp
        rw [Nat.pow_succ] at hpow ⊢
        omega
      obtain rfl : d = k := by omega
      rw [← iterate_level_succ node (by rw [Nat.pow_succ] at hle' hpow; omega)]
      exact hroot
    · exact hroot
    · have hpow : 2 ^ (k + 2) ≤ 2 ^ d := Nat.pow_le_pow_right (by decide) hgt
      have hdk : d = k + 2 := by
        apply (Nat.pow_right_inj (a := 2) (by decide)).mp
        rw [Nat.pow_succ] at hpow ⊢
        omega
      subst hdk
      rw [iterate_level_succ node (by rw [Nat.pow_succ 2 (k + 1)] at hle; omega)]
      exact hroot
  · match l, hle, hge, hlen, h with
    | [a], hle, _, _, h =>
      obtain rfl : d = 0 := by
        by_contra hne
        have := Nat.pow_le_pow_right (n := 2) (by decide) (Nat.one_le_iff_ne_zero.mpr hne)
        simp only [length_singleton] at hle
        omega
      exact congrArg (fun x => [x]) (Option.some.inj h)
    | [a, b], hle, _, _, h =>
      have hd : d ≤ 1 := by
        by_contra hne
        have := Nat.pow_le_pow_right (n := 2) (by decide) (show 2 ≤ d by omega)
        simp only [length_cons, length_nil] at hle
        omega
      obtain rfl | rfl : d = 0 ∨ d = 1 := by omega
      · exact congrArg (fun x => [x]) (Option.some.inj h)
      · exact congrArg (fun x => [x]) (Option.some.inj h)
    | [], _, _, _, h => cases h

/-! ## Branches -/

/-- The right neighbours of the leftmost values, from the level `l` up. -/
def siblings : Nat → List α → List α
  | 0, _ => []
  | d + 1, l => l[1]?.toList ++ siblings d (pairUp node l)

theorem siblings_length : ∀ {d : Nat} {l : List α}, l.length = 2 ^ d → (siblings node d l).length = d
  | 0, _, _ => rfl
  | d + 1, l, h => by
    have hpow := Nat.two_pow_pos d
    have hl : l.length = 2 * 2 ^ d := by rw [h, Nat.pow_succ, Nat.mul_comm]
    rw [siblings, length_append, siblings_length (pairUp_length node hl),
      getElem?_eq_getElem (show 1 < l.length by omega), Option.toList_some, length_singleton, Nat.add_comm]

/-- Folding the branch onto the first value climbs to the root. -/
theorem siblings_root : ∀ {d : Nat} {l : List α} {a r : α}, l.length = 2 ^ d → l[0]? = some a →
    (pairUp node)^[d] l = [r] → (siblings node d l).foldl node a = r
  | 0, l, a, r, _, ha, hr => by
    have hl : l = [r] := hr
    rw [hl] at ha
    exact (Option.some.inj ha).symm
  | d + 1, l, a, r, h, ha, hr => by
    have hl : l.length = 2 * 2 ^ d := by rw [h, Nat.pow_succ, Nat.mul_comm]
    have hpow := Nat.two_pow_pos d
    match l, ha, hl with
    | [_], _, hl =>
      simp only [length_singleton] at hl
      omega
    | a' :: b :: l, ha, hl =>
      obtain rfl : a' = a := by simpa using ha
      rw [siblings]
      simp only [getElem?_cons_succ, getElem?_cons_zero, Option.toList_some, cons_append, nil_append, foldl_cons]
      exact siblings_root (pairUp_length node hl) rfl (Function.iterate_succ_apply _ _ _ ▸ hr)

/-! ## The loop -/

/-- A write inside the array. -/
def put (ints : List α) (j : Nat) (v : α) : Option (List α) := if j < ints.length then some (ints.set j v) else none

/-- One turn: the pair at `i` of `src ints` goes to `j`. The source may be the array itself. -/
def pairTurn (src : List α → List α) (j : Nat) (s : List α × Nat) (k : Nat) : Option (List α × Nat) :=
  (src s.1)[s.2]?.bind fun a => (src s.1)[s.2 + 1]?.bind fun b => (put s.1 (j + k) (node a b)).map (·, s.2 + 2)

/-- `n` turns from `i` and `j` on; `i` goes up by two, `j` by one. -/
def pairLoop (src : List α → List α) (i j n : Nat) (ints : List α) : Option (List α × Nat) :=
  (List.range n).foldlM (pairTurn node src j) (ints, i)

/-- What stands behind `j + k` is not written before turn `k`, so a source that reads there
reads what it would have read in the beginning. -/
def Untouched (src : List α → List α) (read ints : List α) : Prop :=
  ∀ (ints' : List α) (m i : Nat), ints'.drop m = ints.drop m → m ≤ i → (src ints')[i]? = read[i]?

theorem untouched_const (read ints : List α) : Untouched (fun _ => read) read ints := fun _ _ _ _ _ => rfl

theorem untouched_self (ints : List α) : Untouched id ints ints := by
  intro ints' m i h hle
  obtain ⟨t, rfl⟩ : ∃ t, i = m + t := ⟨i - m, by omega⟩
  rw [id, ← getElem?_drop, h, getElem?_drop]

theorem pairTurn_eq {src : List α → List α} {ints : List α} {i j k : Nat} {a b : α} (ha : (src ints)[i]? = some a)
    (hb : (src ints)[i + 1]? = some b) (hj : j + k < ints.length) :
    pairTurn node src j (ints, i) k = some (ints.set (j + k) (node a b), i + 2) := by
  simp only [pairTurn, ha, hb, Option.bind_some, put, if_pos hj, Option.map_some]

/-- Two values more. -/
theorem take_two_more {l : List α} {n : Nat} (h : n + 1 < l.length) :
    l.take (n + 2) = l.take n ++ [l[n], l[n + 1]] := by
  rw [take_add_one, take_add_one, getElem?_eq_getElem h, getElem?_eq_getElem (by omega), append_assoc]
  rfl

theorem pairLoop_eq {src : List α → List α} {read ints : List α} (hsrc : Untouched src read ints) {i j : Nat}
    (hij : j ≤ i) : ∀ {n : Nat}, i + 2 * n ≤ read.length → j + n ≤ ints.length → pairLoop node src i j n ints =
      some (ints.take j ++ pairUp node ((read.drop i).take (2 * n)) ++ ints.drop (j + n), i + 2 * n)
  | 0, _, _ => by simp [pairLoop, pairUp]
  | n + 1, hread, hints => by
    have ih := pairLoop_eq hsrc hij (n := n) (by omega) (by omega)
    have hpairs : ((read.drop i).take (2 * n)).length = 2 * n := by
      rw [length_take, length_drop]
      omega
    have hdone : (ints.take j ++ pairUp node ((read.drop i).take (2 * n))).length = j + n := by
      rw [length_append, length_take, pairUp_length node hpairs]
      omega
    have hturn := hsrc (ints.take j ++ pairUp node ((read.drop i).take (2 * n)) ++ ints.drop (j + n)) (j + n)
    rw [drop_left' hdone] at hturn
    have ha := (hturn (i + 2 * n) rfl (by omega)).trans (getElem?_eq_getElem (by omega))
    have hb := (hturn (i + 2 * n + 1) rfl (by omega)).trans (getElem?_eq_getElem (by omega))
    have hspace : j + n < (ints.take j ++ pairUp node ((read.drop i).take (2 * n)) ++ ints.drop (j + n)).length := by
      rw [length_append, hdone, length_drop]
      omega
    unfold pairLoop at ih ⊢
    rw [range_succ, foldlM_append, ih, Option.bind_eq_bind, Option.bind_some, foldlM_cons,
      pairTurn_eq node ha hb hspace]
    -- the pair lands in front of what the loop has not reached
    have hset : (ints.take j ++ pairUp node ((read.drop i).take (2 * n)) ++ ints.drop (j + n)).set (j + n)
        (node read[i + 2 * n] read[i + 2 * n + 1]) = ints.take j ++ (pairUp node ((read.drop i).take (2 * n)) ++
          [node read[i + 2 * n] read[i + 2 * n + 1]]) ++ ints.drop (j + (n + 1)) := by
      have hrest : ints.drop (j + n) = ints[j + n] :: ints.drop (j + (n + 1)) := drop_eq_getElem_cons (by omega)
      rw [set_append_right _ _ (by omega), hdone, Nat.sub_self, hrest, set_cons_zero]
      simp only [append_assoc, singleton_append]
    have hmore : pairUp node ((read.drop i).take (2 * (n + 1))) = pairUp node ((read.drop i).take (2 * n)) ++
        [node read[i + 2 * n] read[i + 2 * n + 1]] := by
      rw [Nat.mul_add, take_two_more (by rw [length_drop]; omega), pairUp_append node _ hpairs]
      simp [pairUp, Nat.add_assoc]
    rw [hmore, ← hset]
    rfl

end Discrete.PairTree
