import Mathlib.Data.Nat.Bitwise
import Mathlib.Data.List.Basic

/-!
# Hash trees over any number of leaves

The leaves that are too many for a power of two are paired up first, then whole levels are
paired until one value is left. The tree does not contain the number of its leaves; with
that number given, equal roots have equal leaves, as long as the node function has no
collision among the pairs it was applied to (`root_inj`).
-/
namespace Discrete.PairTree
open List

variable {α : Type} (node : α → α → α)

/-- One level up. -/
def pairUp : List α → List α
  | a :: b :: l => node a b :: pairUp l
  | _ => []

/-- The pairs that `pairUp` looks at. -/
def neighbours : List α → List (α × α)
  | a :: b :: l => (a, b) :: neighbours l
  | _ => []

/-- Levels are paired until two values are left. -/
def shrink : Nat → List α → List α
  | 0, l => l
  | fuel + 1, l => if l.length > 2 then shrink fuel (pairUp node l) else l

def shrinkPairs : Nat → List α → List (α × α)
  | 0, _ => []
  | fuel + 1, l => if l.length > 2 then neighbours l ++ shrinkPairs fuel (pairUp node l) else []

/-- The first level: `single` leaves stay as they are. -/
def level (single : Nat) (l : List α) : List α := l.take single ++ pairUp node (l.drop single)

/-- `power` is the length of the first level. -/
def root (power : Nat) (l : List α) : Option α :=
  match l with
  | [] => none
  | [a] => some a
  | [a, b] => some (node a b)
  | _ =>
    match shrink node power (level node (2 * power - l.length) l) with
    | [a, b] => some (node a b)
    | _ => none

/-- Every pair that `root` applies `node` to. -/
def rootPairs (power : Nat) (l : List α) : List (α × α) :=
  if l.length ≤ 2 then neighbours l
  else
    neighbours (l.drop (2 * power - l.length)) ++ (shrinkPairs node power (level node (2 * power - l.length) l) ++
        neighbours (shrink node power (level node (2 * power - l.length) l)))

/-- A first level of `power` values for `count` leaves. -/
def Fits (power count : Nat) : Prop := ∃ k, power = 2 ^ (k + 1) ∧ 2 ^ (k + 1) ≤ count ∧ count ≤ 2 * 2 ^ (k + 1)

/-! ## Lengths -/

theorem pairUp_length : ∀ {n : Nat} {l : List α}, l.length = 2 * n → (pairUp node l).length = n
  | 0, [], _ => rfl
  | n + 1, _ :: _ :: l, h => by
    have hl : l.length = 2 * n := by
      simp only [length_cons] at h
      omega
    rw [pairUp, length_cons, pairUp_length hl]
  | n + 1, [_], h => by
    simp only [length_singleton] at h
    omega
  | 0, _ :: _, h => by simp at h
  | n + 1, [], h => by simp at h

theorem level_length {power : Nat} {l : List α} (hle : power ≤ l.length) (hge : l.length ≤ 2 * power) :
    (level node (2 * power - l.length) l).length = power := by
  have hdrop : (l.drop (2 * power - l.length)).length = 2 * (l.length - power) := by
    rw [length_drop]
    omega
  rw [level, length_append, length_take, pairUp_length node hdrop]
  omega

theorem shrink_length : ∀ {k fuel : Nat} {l : List α}, l.length = 2 ^ (k + 1) → k ≤ fuel →
    (shrink node fuel l).length = 2
  | 0, 0, l, h, _ => h
  | 0, fuel + 1, l, h, _ => by
    rw [shrink, if_neg (by omega), h]
    rfl
  | k + 1, fuel + 1, l, h, hk => by
    have hpow : 2 ≤ 2 ^ (k + 1) := Nat.le_self_pow (by omega) 2
    have hl : l.length = 2 * 2 ^ (k + 1) := by rw [h, Nat.pow_succ, Nat.mul_comm]
    rw [shrink, if_pos (by omega)]
    exact shrink_length (pairUp_length node hl) (by omega)

/-! ## Equal roots -/

variable {S : Set (α × α)} (hS : Set.InjOn (fun p : α × α => node p.1 p.2) S)

include hS in
theorem pairUp_inj : ∀ {n : Nat} {l l' : List α}, l.length = 2 * n → l'.length = 2 * n →
    (∀ p ∈ neighbours l, p ∈ S) → (∀ p ∈ neighbours l', p ∈ S) → pairUp node l = pairUp node l' → l = l'
  | 0, [], [], _, _, _, _, _ => rfl
  | n + 1, a :: b :: l, a' :: b' :: l', h, h', hp, hp', e => by
    simp only [length_cons] at h h'
    simp only [neighbours, forall_mem_cons] at hp hp'
    simp only [pairUp, List.cons.injEq] at e
    have hab : (a, b) = (a', b') := hS hp.1 hp'.1 e.1
    cases hab
    rw [pairUp_inj (n := n) (by omega) (by omega) hp.2 hp'.2 e.2]
  | n + 1, [_], _, h, _, _, _, _ => by
    simp only [length_singleton] at h
    omega
  | n + 1, _, [_], _, h', _, _, _ => by
    simp only [length_singleton] at h'
    omega
  | 0, _ :: _, _, h, _, _, _, _ => by simp at h
  | 0, _, _ :: _, _, h', _, _, _ => by simp at h'
  | n + 1, [], _, h, _, _, _, _ => by simp at h
  | n + 1, _, [], _, h', _, _, _ => by simp at h'

include hS in
/-- The levels are paired in step, since they have the same length. -/
theorem shrink_inj : ∀ {k fuel : Nat} {l l' : List α}, l.length = 2 ^ (k + 1) → l'.length = 2 ^ (k + 1) →
    (∀ p ∈ shrinkPairs node fuel l, p ∈ S) → (∀ p ∈ shrinkPairs node fuel l', p ∈ S) →
    shrink node fuel l = shrink node fuel l' → l = l'
  | _, 0, _, _, _, _, _, _, e => e
  | 0, fuel + 1, l, l', h, h', _, _, e => by
    rwa [shrink, if_neg (by omega), shrink, if_neg (by omega)] at e
  | k + 1, fuel + 1, l, l', h, h', hp, hp', e => by
    have hpow : 2 ≤ 2 ^ (k + 1) := Nat.le_self_pow (by omega) 2
    have hl : l.length = 2 * 2 ^ (k + 1) := by rw [h, Nat.pow_succ, Nat.mul_comm]
    have hl' : l'.length = 2 * 2 ^ (k + 1) := by rw [h', Nat.pow_succ, Nat.mul_comm]
    rw [shrinkPairs, if_pos (by omega), forall_mem_append] at hp hp'
    rw [shrink, if_pos (by omega), shrink, if_pos (by omega)] at e
    have hup := shrink_inj (pairUp_length node hl) (pairUp_length node hl') hp.2 hp'.2 e
    exact pairUp_inj node hS hl hl' hp.1 hp'.1 hup

include hS in
theorem level_inj {power : Nat} {l l' : List α} (hlen : l.length = l'.length) (hle : power ≤ l.length)
    (hge : l.length ≤ 2 * power) (hp : ∀ p ∈ neighbours (l.drop (2 * power - l.length)), p ∈ S)
    (hp' : ∀ p ∈ neighbours (l'.drop (2 * power - l'.length)), p ∈ S)
    (e : level node (2 * power - l.length) l = level node (2 * power - l'.length) l') : l = l' := by
  rw [← hlen] at e hp'
  have htake : (l.take (2 * power - l.length)).length = (l'.take (2 * power - l.length)).length := by
    rw [length_take, length_take, hlen]
  obtain ⟨hfirst, hrest⟩ := append_inj e htake
  have hdrop : (l.drop (2 * power - l.length)).length = 2 * (l.length - power) := by
    rw [length_drop]
    omega
  have hdrop' : (l'.drop (2 * power - l.length)).length = 2 * (l.length - power) := by
    rw [length_drop]
    omega
  rw [← take_append_drop (2 * power - l.length) l, hfirst,
    pairUp_inj node hS hdrop hdrop' hp hp' hrest, take_append_drop]

include hS in
/-- Two trees with as many leaves and the same root have the same leaves. -/
theorem root_inj {power : Nat} {l l' : List α} (hlen : l.length = l'.length) (hpower : 2 < l.length → Fits power l.length)
    (hp : ∀ p ∈ rootPairs node power l, p ∈ S) (hp' : ∀ p ∈ rootPairs node power l', p ∈ S) {r : α}
    (h : root node power l = some r) (h' : root node power l' = some r) : l = l' := by
  by_cases htwo : l.length ≤ 2
  · rw [rootPairs, if_pos (by omega)] at hp hp'
    match l, l', hlen, htwo, h, h', hp, hp' with
    | [], _, _, _, h, _, _, _ => cases h
    | [a], [a'], _, _, h, h', _, _ =>
      cases h
      cases h'
      rfl
    | [a, b], [a', b'], _, _, h, h', hp, hp' =>
      simp only [root, Option.some.injEq] at h h'
      have hab : (a, b) = (a', b') := hS (hp _ mem_cons_self) (hp' _ mem_cons_self) (h.trans h'.symm)
      cases hab
      rfl
  · obtain ⟨k, rfl, hle, hge⟩ := hpower (by omega)
    rw [rootPairs, if_neg (by omega), forall_mem_append, forall_mem_append] at hp hp'
    have hl := level_length node hle hge
    have hl' := level_length node (hlen ▸ hle) (hlen ▸ hge)
    have htop : ∀ {m : List α} {s : α}, 2 < m.length → root node (2 ^ (k + 1)) m = some s →
        ∃ a b, shrink node (2 ^ (k + 1)) (level node (2 * 2 ^ (k + 1) - m.length) m) = [a, b] ∧ node a b = s := by
      intro m s hm hr
      match m, hm, hr with
      | a :: b :: c :: m, _, hr =>
        rw [root] at hr
        · split at hr
          · rename_i x y hxy
            exact ⟨x, y, hxy, by simpa using hr⟩
          · cases hr
        all_goals simp
    obtain ⟨a, b, hab, hnode⟩ := htop (by omega) h
    obtain ⟨a', b', hab', hnode'⟩ := htop (by omega) h'
    rw [hab] at hp
    rw [hab'] at hp'
    have hpair : (a, b) = (a', b') :=
      hS (hp.2.2 _ mem_cons_self) (hp'.2.2 _ mem_cons_self) (hnode.trans hnode'.symm)
    cases hpair
    have hlevel := shrink_inj node hS hl hl' hp.2.1 hp'.2.1 (hab.trans hab'.symm)
    exact level_inj node hS hlen hle hge hp.1 hp'.1 hlevel

/-- Every list of leaves has a root. -/
theorem root_isSome {power : Nat} {l : List α} (hne : l ≠ []) (hpower : 2 < l.length → Fits power l.length) :
    (root node power l).isSome = true := by
  match l, hne, hpower with
  | [_], _, _ => rfl
  | [_, _], _, _ => rfl
  | a :: b :: c :: m, _, hpower =>
    obtain ⟨k, rfl, hle, hge⟩ := hpower (by simp)
    have hk : k ≤ 2 ^ (k + 1) := by
      have := Nat.lt_two_pow_self (n := k + 1)
      omega
    have htwo := shrink_length node (level_length node hle hge) hk
    rw [root]
    · obtain ⟨x, y, hxy⟩ := length_eq_two.mp htwo
      rw [hxy]
      rfl
    all_goals simp

end Discrete.PairTree
