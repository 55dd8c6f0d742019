import Mathlib.Algebra.Ring.Nat
import Mathlib.Data.Finset.Card
import Mathlib.Algebra.BigOperators.Group.List.Basic

/-!
# Greedy selection under two caps

One pass over a list takes every member that still fits: at most `total` members
in all, under at most `keys` distinct keys. `gather` stops taking as soon as the
weight reaches a goal.

* `greedy_eq`: what the pass takes is the first `total` members whose key is among
  the `keys` keys that turn up first (`leading`).
* `exists_feasible_iff`: on a list in descending order of weight, some selection
  within the caps reaches a goal exactly when, for some choice of keys, the
  heaviest members under those keys do.
* `gather_complete_iff`: so the pass finds a selection whenever there is one
  exactly when the keys that turn up first are as good as any others.
* `gather_all`: a list within the caps that weighs no more than the goal is taken whole.
-/
namespace Discrete.Greedy
open List

variable {α κ : Type} [DecidableEq κ]

structure Caps where
  total : Nat
  keys : Nat
  deriving DecidableEq

def keySet (key : α → κ) (s : List α) : Finset κ := (s.map key).toFinset

variable {key : α → κ} {s : List α}

theorem mem_keySet {k : κ} : k ∈ keySet key s ↔ ∃ x ∈ s, key x = k := by
  simp [keySet]

@[simp] theorem keySet_nil (key : α → κ) : keySet key [] = ∅ := rfl

theorem keySet_concat (key : α → κ) (s : List α) (x : α) : keySet key (s ++ [x]) = insert (key x) (keySet key s) := by
  ext k
  simp [keySet]

variable {t : List α}

theorem keySet_mono (h : s ⊆ t) : keySet key s ⊆ keySet key t := by
  intro k hk
  obtain ⟨x, hx, hk⟩ := mem_keySet.mp hk
  exact mem_keySet.mpr ⟨x, h hx, hk⟩

/-- A selection within the caps. -/
structure Feasible (c : Caps) (key : α → κ) (s : List α) : Prop where
  total : s.length ≤ c.total
  keys : (keySet key s).card ≤ c.keys

theorem Feasible.nil (c : Caps) (key : α → κ) : Feasible c key [] := ⟨by simp, by simp⟩

variable {c : Caps}

/-- Only the members count, not their order. -/
theorem Feasible.subperm (h : Feasible c key t) (hst : s.Subperm t) : Feasible c key s :=
  ⟨hst.length_le.trans h.total, (Finset.card_le_card (keySet_mono hst.subset)).trans h.keys⟩

/-- There is room for `x`: another member, and its key is there already or may be added. -/
def Fits (c : Caps) (key : α → κ) (s : List α) (x : α) : Prop :=
  s.length < c.total ∧ (key x ∈ keySet key s ∨ (keySet key s).card < c.keys)

instance (c : Caps) (key : α → κ) (s : List α) (x : α) : Decidable (Fits c key s x) :=
  inferInstanceAs (Decidable (_ ∧ _))

variable {x : α}

theorem Feasible.concat (h : Feasible c key s) (hx : Fits c key s x) : Feasible c key (s ++ [x]) := by
  refine ⟨by simpa using Nat.succ_le_of_lt hx.1, ?_⟩
  rw [keySet_concat]
  rcases hx.2 with hmem | hcard
  · rw [Finset.insert_eq_of_mem hmem]
    exact h.keys
  · exact (Finset.card_insert_le _ _).trans hcard

theorem Feasible.fits (h : Feasible c key (s ++ [x])) : Fits c key s x := by
  obtain ⟨htotal, hkeys⟩ := h
  rw [length_append, length_singleton] at htotal
  rw [keySet_concat] at hkeys
  refine ⟨htotal, ?_⟩
  by_cases hmem : key x ∈ keySet key s
  · exact .inl hmem
  · rw [Finset.card_insert_of_notMem hmem] at hkeys
    exact .inr hkeys

/-! ## The pass -/

/-- Take every member that fits, after those of `s`. -/
def greedy (c : Caps) (key : α → κ) : List α → List α → List α
  | s, [] => s
  | s, x :: l => if Fits c key s x then greedy c key (s ++ [x]) l else greedy c key s l

/-- The keys of `G` and, up to `n` in all, those that turn up first in the list. -/
def leading (n : Nat) (key : α → κ) : Finset κ → List α → Finset κ
  | G, [] => G
  | G, x :: l => if key x ∈ G ∨ n ≤ G.card then leading n key G l else leading n key (insert (key x) G) l

variable {G : Finset κ}

theorem leading_full {n : Nat} (h : n ≤ G.card) :
    ∀ l : List α, leading n key G l = G
  | [] => rfl
  | x :: l => by rw [leading, if_pos (Or.inr h), leading_full h l]

theorem subset_leading (n : Nat) (key : α → κ) : ∀ (G : Finset κ) (l : List α), G ⊆ leading n key G l
  | _, [] => Finset.Subset.refl _
  | G, x :: l => by
    rw [leading]
    split
    · exact subset_leading n key G l
    · exact (Finset.subset_insert _ _).trans (subset_leading n key _ l)

/-- Members under the keys `G`. -/
def under (key : α → κ) (G : Finset κ) (l : List α) : List α := l.filter fun x => decide (key x ∈ G)

theorem under_cons_of_mem (h : key x ∈ G) (l : List α) : under key G (x :: l) = x :: under key G l := by
  simp [under, h]

theorem under_cons_of_notMem (h : key x ∉ G) (l : List α) : under key G (x :: l) = under key G l := by
  simp [under, h]

variable {l : List α}

theorem under_eq_self (h : ∀ x ∈ l, key x ∈ G) : under key G l = l := by
  simpa [under, filter_eq_self] using h

/-- The pass takes the first members under the leading keys, up to the cap. -/
theorem greedy_eq (c : Caps) (key : α → κ) (l s : List α) :
    greedy c key s l = s ++ (under key (leading c.keys key (keySet key s) l) l).take (c.total - s.length) := by
  induction l generalizing s with
  | nil => simp [greedy, under]
  | cons x l ih =>
    by_cases hfull : c.total ≤ s.length
    · have hno : ¬ Fits c key s x := fun h => absurd h.1 (by omega)
      rw [greedy, if_neg hno, ih]
      simp [Nat.sub_eq_zero_of_le hfull]
    · have hroom : c.total - s.length = (c.total - (s ++ [x]).length) + 1 := by
        simp only [length_append, length_singleton]
        omega
      by_cases hmem : key x ∈ keySet key s
      · -- the key is there already: nothing new leads
        rw [greedy, if_pos ⟨by omega, Or.inl hmem⟩, ih, keySet_concat, Finset.insert_eq_of_mem hmem,
          leading, if_pos (Or.inl hmem), under_cons_of_mem (subset_leading _ _ _ _ hmem), hroom, take_succ_cons]
        simp
      · by_cases hcard : (keySet key s).card < c.keys
        · rw [greedy, if_pos ⟨by omega, Or.inr hcard⟩, ih, keySet_concat, leading, if_neg (by simp [hmem, hcard]),
            under_cons_of_mem (subset_leading _ _ _ _ (Finset.mem_insert_self _ _)), hroom, take_succ_cons]
          simp
        · have hle : c.keys ≤ (keySet key s).card := not_lt.mp hcard
          have hno : ¬ Fits c key s x := fun h => h.2.elim hmem hcard
          rw [greedy, if_neg hno, ih, leading, if_pos (Or.inr hle), leading_full hle, under_cons_of_notMem hmem]

/-! ## Weights -/

variable (w : α → Nat)

def weight (s : List α) : Nat := (s.map w).sum

@[simp] theorem weight_nil : weight w [] = 0 := rfl

@[simp] theorem weight_cons (x : α) (s : List α) : weight w (x :: s) = w x + weight w s := by
  simp [weight]

@[simp] theorem weight_append (s t : List α) : weight w (s ++ t) = weight w s + weight w t := by
  simp [weight]

theorem weight_perm (h : s.Perm t) : weight w s = weight w t := (h.map w).sum_eq

theorem weight_le_of_sublist (h : s.Sublist t) : weight w s ≤ weight w t := by
  induction h with
  | slnil => exact Nat.le_refl _
  | cons a _ ih => rw [weight_cons]; omega
  | cons_cons a _ ih => rw [weight_cons, weight_cons]; omega

/-- In descending order no `n` members outweigh the first `n`. -/
theorem weight_le_take (hl : l.Pairwise fun a b => w b ≤ w a) :
    ∀ {s : List α} {n : Nat}, s.Sublist l → s.length ≤ n → weight w s ≤ weight w (l.take n) := by
  induction l with
  | nil =>
    intro s n hs _
    rw [sublist_nil.mp hs]
    simp
  | cons a l ih =>
    obtain ⟨ha, hl⟩ := pairwise_cons.mp hl
    intro s n hs hn
    match s, n, hn with
    | [], _, _ => simp
    | b :: s, n + 1, hn =>
      have hn : s.length ≤ n := by simpa using hn
      have hb : w b ≤ w a := by
        rcases mem_cons.mp (hs.subset mem_cons_self) with e | hmem
        · rw [e]
        · exact ha b hmem
      have hsl : s.Sublist l := List.Sublist.of_cons_cons hs
      rw [take_succ_cons, weight_cons, weight_cons]
      exact Nat.add_le_add hb (ih hl hsl hn)

theorem under_sublist (key : α → κ) (G : Finset κ) (l : List α) : (under key G l).Sublist l :=
  filter_sublist

/-- The heaviest members under the keys `G`, as many as one selection may hold. -/
def top (c : Caps) (key : α → κ) (G : Finset κ) (l : List α) : List α := (under key G l).take c.total

theorem top_sublist (c : Caps) (key : α → κ) (G : Finset κ) (l : List α) : (top c key G l).Sublist l :=
  (take_sublist _ _).trans (under_sublist key G l)

theorem top_feasible (key : α → κ) (hG : G.card ≤ c.keys) (l : List α) : Feasible c key (top c key G l) := by
  refine ⟨length_take_le _ _, (Finset.card_le_card ?_).trans hG⟩
  intro k hk
  obtain ⟨x, hx, rfl⟩ := mem_keySet.mp hk
  simpa [under] using (mem_filter.mp (mem_of_mem_take hx)).2

variable {need : Nat}

/-- Some selection within the caps reaches `need` exactly when, for some choice of
keys, the heaviest members under them do. -/
theorem exists_feasible_iff (hl : l.Pairwise fun a b => w b ≤ w a) :
    (∃ s : List α, s.Subperm l ∧ Feasible c key s ∧ need ≤ weight w s) ↔
      ∃ G : Finset κ, G.card ≤ c.keys ∧ need ≤ weight w (top c key G l) := by
  constructor
  · rintro ⟨s, ⟨t, hts, htl⟩, hs, hneed⟩
    refine ⟨keySet key s, hs.keys, hneed.trans ?_⟩
    have hunder : t.Sublist (under key (keySet key s) l) := by
      have ht : under key (keySet key s) t = t :=
        under_eq_self fun x hx => mem_keySet.mpr ⟨x, hts.subset hx, rfl⟩
      rw [← ht]
      exact htl.filter _
    rw [← weight_perm w hts]
    exact weight_le_take w (hl.sublist (under_sublist key _ l)) hunder (hts.length_eq ▸ hs.total)
  · rintro ⟨G, hG, hneed⟩
    exact ⟨_, (top_sublist c key G l).subperm, top_feasible key hG l, hneed⟩

/-! ## Stopping at a goal -/

/-- The pass that takes nothing more once `need` is reached. -/
def gather (c : Caps) (key : α → κ) (need : Nat) : List α → List α → List α
  | s, [] => s
  | s, x :: l =>
    if need ≤ weight w s then gather c key need s l
    else if Fits c key s x then gather c key need (s ++ [x]) l
    else gather c key need s l

theorem gather_done (h : need ≤ weight w s) :
    ∀ l : List α, gather w c key need s l = s
  | [] => rfl
  | x :: l => by rw [gather, if_pos h, gather_done h l]

/-- When the whole list is within the caps and no part of it reaches the goal, all of
it is taken. -/
theorem gather_all : ∀ {l s : List α}, Feasible c key (s ++ l) →
    (∀ x ∈ l, 0 < w x) → weight w (s ++ l) ≤ need → gather w c key need s l = s ++ l
  | [], s, _, _, _ => by rw [gather, append_nil]
  | x :: l, s, hf, hpos, hneed => by
    have hsplit : s ++ x :: l = s ++ [x] ++ l := by simp
    have hnot : ¬ need ≤ weight w s := by
      have hx := hpos x (by simp)
      rw [weight_append, weight_cons] at hneed
      omega
    rw [hsplit] at hf hneed ⊢
    have hfits : Fits c key s x := (hf.subperm (sublist_append_left _ _).subperm).fits
    rw [gather, if_neg hnot, if_pos hfits]
    exact gather_all hf (fun y hy => hpos y (mem_cons_of_mem x hy)) hneed

theorem greedy_weight_ge (c : Caps) (key : α → κ) (s l : List α) : weight w s ≤ weight w (greedy c key s l) := by
  rw [greedy_eq, weight_append]
  exact Nat.le_add_right _ _

/-- Stopping early does not change whether the goal is reached. -/
theorem gather_reaches_iff (s l : List α) :
    need ≤ weight w (gather w c key need s l) ↔ need ≤ weight w (greedy c key s l) := by
  induction l generalizing s with
  | nil => rfl
  | cons x l ih =>
    by_cases hdone : need ≤ weight w s
    · rw [gather_done w hdone]
      exact ⟨fun _ => hdone.trans (greedy_weight_ge w c key s _), fun _ => hdone⟩
    · rw [gather, if_neg hdone, greedy]
      split
      · exact ih _
      · exact ih _

/-- From nothing, the pass reaches the goal exactly when the heaviest members under
the leading keys do. -/
theorem gather_reaches (l : List α) :
    need ≤ weight w (gather w c key need [] l) ↔ need ≤ weight w (top c key (leading c.keys key ∅ l) l) := by
  rw [gather_reaches_iff, greedy_eq]
  simp [top]

/-- The keys that turn up first are as good for `need` as any others. -/
def LeadingSuffice (c : Caps) (key : α → κ) (need : Nat) (l : List α) : Prop :=
  ∀ G : Finset κ, G.card ≤ c.keys → need ≤ weight w (top c key G l) →
    need ≤ weight w (top c key (leading c.keys key ∅ l) l)

/-- The pass misses no selection exactly when the leading keys suffice. -/
theorem gather_complete_iff (hl : l.Pairwise fun a b => w b ≤ w a) :
    (¬ need ≤ weight w (gather w c key need [] l) →
        ¬ ∃ s : List α, s.Subperm l ∧ Feasible c key s ∧ need ≤ weight w s) ↔ LeadingSuffice w c key need l := by
  rw [not_imp_not, gather_reaches, exists_feasible_iff w hl]
  constructor
  · intro h G hG hneed
    exact h ⟨G, hG, hneed⟩
  · rintro h ⟨G, hG, hneed⟩
    exact h G hG hneed

/-- With a key allowed for every member, the pass takes the first members whatever their keys. -/
theorem greedy_eq_take (hc : c.total ≤ c.keys) (s l : List α) :
    greedy c key s l = s ++ l.take (c.total - s.length) := by
  induction l generalizing s with
  | nil => simp [greedy]
  | cons x l ih =>
    by_cases hfull : c.total ≤ s.length
    · have hno : ¬ Fits c key s x := fun h => absurd h.1 (by omega)
      rw [greedy, if_neg hno, ih]
      simp [Nat.sub_eq_zero_of_le hfull]
    · have hcard : (keySet key s).card ≤ s.length := by
        simpa [keySet] using toFinset_card_le (s.map key)
      have hroom : c.total - s.length = (c.total - (s ++ [x]).length) + 1 := by
        simp only [length_append, length_singleton]
        omega
      rw [greedy, if_pos ⟨by omega, Or.inr (by omega)⟩, ih, hroom, take_succ_cons]
      simp

/-- With a key allowed for every member, only the number of members is limited. -/
theorem LeadingSuffice.of_total_le (need : Nat) (hl : l.Pairwise fun a b => w b ≤ w a) (hc : c.total ≤ c.keys) :
    LeadingSuffice w c key need l := by
  intro G _ hneed
  have htop : top c key (leading c.keys key ∅ l) l = l.take c.total := by
    have h := (greedy_eq c key l []).symm.trans (greedy_eq_take hc [] l)
    simpa [top] using h
  rw [htop]
  exact hneed.trans (weight_le_take w hl (top_sublist c key G l) (length_take_le _ _))

end Discrete.Greedy
