import Mathlib.Algebra.Ring.Nat
import Mathlib.Algebra.BigOperators.Group.List.Lemmas

/-!
# Journals of outputs and spends

A journal is a list of entries; an entry has an identity, creates outputs, which
are named by the identity and their position, and spends outputs of earlier
entries by name. The value of the unspent outputs is the account of the journal.

`total_append` is its law: appending an entry moves the value of what it spends to
what it creates, and the difference is the difference of the totals.
-/
namespace Discrete.Journal
open List

structure Entry (ι α : Type) where
  id : ι
  spends : List (ι × Nat)
  outs : List α

variable {ι α : Type}

/-- The outputs of an entry from position `k` on, by name. -/
def outsFrom (id : ι) : Nat → List α → List ((ι × Nat) × α)
  | _, [] => []
  | k, a :: l => ((id, k), a) :: outsFrom id (k + 1) l

def created (es : List (Entry ι α)) : List ((ι × Nat) × α) := es.flatMap fun e => outsFrom e.id 0 e.outs

def spent (es : List (Entry ι α)) : List (ι × Nat) := es.flatMap Entry.spends

/-- The entry is new and spends distinct outputs that are there and unspent. -/
structure Appends (es : List (Entry ι α)) (e : Entry ι α) : Prop where
  fresh : ∀ e' ∈ es, e'.id ≠ e.id
  nodup : e.spends.Nodup
  exist : ∀ k ∈ e.spends, k ∈ (created es).map Prod.fst
  unspent : ∀ k ∈ e.spends, k ∉ spent es

inductive Valid : List (Entry ι α) → Prop where
  | nil : Valid []
  | snoc {es : List (Entry ι α)} {e : Entry ι α} : Valid es → Appends es e → Valid (es ++ [e])

variable {es : List (Entry ι α)} {e : Entry ι α}

theorem Valid.snoc_inv (h : Valid (es ++ [e])) : Valid es ∧ Appends es e := by
  generalize hl : es ++ [e] = l at h
  cases h with
  | nil => simp at hl
  | snoc h1 h2 =>
    obtain ⟨rfl, he⟩ := append_inj' hl rfl
    obtain rfl := singleton_inj.mp he
    exact ⟨h1, h2⟩

theorem Valid.of_append {es' : List (Entry ι α)} (h : Valid (es ++ es')) : Valid es := by
  induction es' using List.reverseRecOn with
  | nil => simpa using h
  | append_singleton l e ih =>
    rw [← append_assoc] at h
    exact ih h.snoc_inv.1

/-! ## Names -/

theorem mem_outsFrom {id : ι} {x : (ι × Nat) × α} : ∀ {l : List α} {k : Nat},
    x ∈ outsFrom id k l ↔ x.1.1 = id ∧ k ≤ x.1.2 ∧ l[x.1.2 - k]? = some x.2
  | [], k => by simp [outsFrom]
  | a :: l, k => by
    obtain ⟨⟨i, n⟩, b⟩ := x
    rw [outsFrom, mem_cons, mem_outsFrom]
    simp only [Prod.mk.injEq]
    constructor
    · rintro (⟨⟨rfl, rfl⟩, rfl⟩ | ⟨hi, hk, hget⟩)
      · exact ⟨rfl, le_refl _, by simp⟩
      · exact ⟨hi, by omega, by rw [show n - k = n - (k + 1) + 1 by omega, getElem?_cons_succ, hget]⟩
    · rintro ⟨hi, hk, hget⟩
      rcases Nat.eq_or_lt_of_le hk with rfl | hk
      · simp only [Nat.sub_self, getElem?_cons_zero, Option.some.injEq] at hget
        exact .inl ⟨⟨hi, rfl⟩, hget.symm⟩
      · rw [show n - k = n - (k + 1) + 1 by omega, getElem?_cons_succ] at hget
        exact .inr ⟨hi, by omega, hget⟩

theorem mem_created {x : (ι × Nat) × α} : x ∈ created es ↔ ∃ e ∈ es, x.1.1 = e.id ∧ e.outs[x.1.2]? = some x.2 := by
  simp [created, mem_outsFrom]

theorem outsFrom_names_nodup (id : ι) : ∀ (l : List α) (k : Nat), ((outsFrom id k l).map Prod.fst).Nodup
  | [], _ => by simp [outsFrom]
  | a :: l, k => by
    rw [outsFrom, map_cons, nodup_cons]
    refine ⟨fun hmem => ?_, outsFrom_names_nodup id l (k + 1)⟩
    obtain ⟨x, hx, hname⟩ := List.mem_map.mp hmem
    have hk := (mem_outsFrom.mp hx).2.1
    rw [hname] at hk
    simp only at hk
    omega

theorem outsFrom_values (id : ι) (value : α → Nat) : ∀ (l : List α) (k : Nat),
    (outsFrom id k l).map (fun x => value x.2) = l.map value
  | [], _ => rfl
  | a :: l, k => by rw [outsFrom, map_cons, outsFrom_values id value l, map_cons]

theorem created_append (es : List (Entry ι α)) (e : Entry ι α) :
    created (es ++ [e]) = created es ++ outsFrom e.id 0 e.outs := by
  simp [created]

theorem spent_append (es : List (Entry ι α)) (e : Entry ι α) : spent (es ++ [e]) = spent es ++ e.spends := by
  simp [spent]

theorem Appends.not_created (h : Appends es e) {k : ι × Nat} (hk : k.1 = e.id) : k ∉ (created es).map Prod.fst := by
  intro hmem
  obtain ⟨x, hx, rfl⟩ := List.mem_map.mp hmem
  obtain ⟨e', he', hid, -⟩ := mem_created.mp hx
  exact h.fresh e' he' (by rw [← hid, hk])

/-- Outputs have distinct names. -/
theorem Valid.names_nodup (h : Valid es) : ((created es).map Prod.fst).Nodup := by
  induction h with
  | nil => simp [created]
  | @snoc es e _ ha ih =>
    rw [created_append, map_append]
    refine nodup_append.mpr ⟨ih, outsFrom_names_nodup _ _ _, ?_⟩
    rintro k hk k' hk' rfl
    obtain ⟨x, hx, rfl⟩ := List.mem_map.mp hk'
    exact ha.not_created (mem_outsFrom.mp hx).1 hk

/-- Only created outputs are spent. -/
theorem Valid.spent_created (h : Valid es) : ∀ k ∈ spent es, k ∈ (created es).map Prod.fst := by
  induction h with
  | nil => simp [spent]
  | snoc _ ha ih =>
    intro k hk
    rw [spent_append, mem_append] at hk
    rw [created_append, map_append, mem_append]
    rcases hk with hk | hk
    · exact .inl (ih k hk)
    · exact .inl (ha.exist k hk)

/-! ## The account -/

variable [DecidableEq ι]

def unspent (es : List (Entry ι α)) : List ((ι × Nat) × α) := (created es).filter fun x => x.1 ∉ spent es

/-- The value of the unspent outputs. -/
def total (value : α → Nat) (es : List (Entry ι α)) : Nat := ((unspent es).map fun x => value x.2).sum

/-- The entries under the names `ks`, as a list of values. -/
theorem sum_filter_names {l : List ((ι × Nat) × α)} {ks : List (ι × Nat)} {value : α → Nat} {v : ι × Nat → Nat}
    (hl : (l.map Prod.fst).Nodup) (hks : ks.Nodup) (hsub : ∀ k ∈ ks, k ∈ l.map Prod.fst)
    (hv : ∀ x ∈ l, v x.1 = value x.2) : ((l.filter fun x => x.1 ∈ ks).map fun x => value x.2).sum = (ks.map v).sum := by
  have hnames : ((l.filter fun x => x.1 ∈ ks).map Prod.fst).Perm ks := by
    rw [perm_ext_iff_of_nodup (hl.sublist (filter_sublist.map _)) hks]
    intro k
    constructor
    · intro hk
      obtain ⟨x, hx, rfl⟩ := List.mem_map.mp hk
      simpa using (mem_filter.mp hx).2
    · intro hk
      obtain ⟨x, hx, rfl⟩ := List.mem_map.mp (hsub k hk)
      exact List.mem_map.mpr ⟨x, mem_filter.mpr ⟨hx, by simpa using hk⟩, rfl⟩
  rw [← (hnames.map v).sum_eq, List.map_map]
  congr 1
  apply map_congr_left
  intro x hx
  exact (hv x (mem_filter.mp hx).1).symm

theorem unspent_append (h : Valid es) (ha : Appends es e) :
    unspent (es ++ [e]) = (unspent es).filter (fun x => x.1 ∉ e.spends) ++ outsFrom e.id 0 e.outs := by
  unfold unspent
  rw [created_append, spent_append, filter_append, List.filter_filter]
  congr 1
  · apply filter_congr
    intro x _
    simp [and_comm]
  · rw [filter_eq_self]
    intro x hx
    have hnot := ha.not_created (mem_outsFrom.mp hx).1
    have h1 : x.1 ∉ spent es := fun hm => hnot (h.spent_created _ hm)
    have h2 : x.1 ∉ e.spends := fun hm => hnot (ha.exist _ hm)
    simp [h1, h2]

/-- What an entry spends leaves the account, what it creates enters it. -/
theorem total_append (h : Valid es) (ha : Appends es e)
    {value : α → Nat} {v : ι × Nat → Nat} (hv : ∀ x ∈ created es, v x.1 = value x.2) :
    total value (es ++ [e]) + (e.spends.map v).sum = total value es + (e.outs.map value).sum := by
  have hsplit : total value es = (((unspent es).filter fun x => x.1 ∉ e.spends).map fun x => value x.2).sum +
      (((unspent es).filter fun x => x.1 ∈ e.spends).map fun x => value x.2).sum := by
    have hperm := filter_append_perm (fun x : (ι × Nat) × α => decide (x.1 ∉ e.spends)) (unspent es)
    have := (hperm.map fun x => value x.2).sum_eq
    rw [map_append, sum_append] at this
    rw [total, ← this]
    congr 3
    apply filter_congr
    simp
  have hspends : (((unspent es).filter fun x => x.1 ∈ e.spends).map fun x => value x.2).sum = (e.spends.map v).sum := by
    refine sum_filter_names (h.names_nodup.sublist (filter_sublist.map _)) ha.nodup (fun k hk => ?_)
      fun x hx => hv x (mem_filter.mp hx).1
    obtain ⟨x, hx, rfl⟩ := List.mem_map.mp (ha.exist k hk)
    exact List.mem_map.mpr ⟨x, mem_filter.mpr ⟨hx, by simpa using ha.unspent _ hk⟩, rfl⟩
  rw [total, unspent_append h ha, map_append, sum_append, outsFrom_values, hsplit, hspends]
  omega

end Discrete.Journal
